import MiniC.Proofs.Typing.Traces
import MiniC.Proofs.Typing.TwinChecks
/-!
The analysis of one tree in two runs. Main statements, one for each form of the tree: from linked states
the runs end in linked states, and come to expressions of kin types or to the same failure.
-/
namespace MiniC

/-- The type of an expression statement. -/
def Syntax.StmtKind.ty? : StmtKind → Option TypeId
  | .expr e => e.ty
  | _ => none

def Syntax.BlockItem.ty? : BlockItem → Option TypeId
  | .statement ⟨kind, _⟩ => kind.ty?
  | .declaration _ => none

theorem Syntax.Block.trailing?_bind (b : Block) :
    b.trailing?.bind (·.ty) = b.items.getLast?.bind BlockItem.ty? := by
  rw [Block.trailing?]
  cases b.items.getLast? with
  | none => rfl
  | some i =>
    cases i with
    | declaration d => rfl
    | statement s =>
      obtain ⟨kind, span⟩ := s
      cases kind <;> rfl

namespace Typing

open Registry (Akin Fork Kin Pair Within)
open Syntax Check

variable {α β τ σ : Type} {W : Rift} {p q : Pair}

/-! Every analysis only adds types. -/

instance (x : Written) : Enlarges (outcome (findType x)) := by
  unfold findType
  cases x <;> infer_instance

theorem Steps.within {tr : Trace} {s s' : State} (h : Steps tr s s') :
    Within s.registry s'.registry := by
  induction h with
  | done hi => exact hi.registry.grows.toWithin
  | @found x t tr s s₀ s₁ s' hi hfind _ ih =>
    have henlarges := Enlarges.within (x := outcome (findType x)) s₀
    rw [hfind] at henlarges
    exact hi.registry.grows.toWithin.trans (henlarges.trans ih)
  | @failed x e tr s s₀ s₁ s' hi hfind _ ih =>
    have henlarges := Enlarges.within (x := outcome (findType x)) s₀
    rw [hfind] at henlarges
    exact hi.registry.grows.toWithin.trans (henlarges.trans ih)
  | recorded hi _ ih => exact hi.registry.grows.toWithin.trans ih
  | scope hi _ _ ihi ih | loop hi _ _ ihi ih | function hi _ _ ihi ih =>
    exact hi.registry.grows.toWithin.trans (ihi.trans ih)

theorem Walks.enlarges {K : List (Written × TypeId)} {act : Analysis (τ × Verdict β)} {o : Script}
    {N : τ → List (Written × TypeId)} (h : Walks K act o N) : Enlarges act := ⟨fun s => by
  obtain ⟨tr, hsteps, -⟩ := h s
  exact hsteps.within⟩

instance (e : Expr) : Enlarges (expr e) := (walks_expr [] e).enlarges

instance (e : Expr) : Enlarges (value e) := (walks_value [] e).enlarges

instance (span : Span) (ty : Option TypeId) (k : ExprKind) : Enlarges (exprKind span ty k) :=
  (walks_exprKind [] span ty k).enlarges

instance (e : Expr) : Enlarges (condition e) := (walks_condition [] e).enlarges

instance (last : TypeId) (es : List Expr) : Enlarges (values last es) := (walks_values [] last es).enlarges

instance (params : List TypeId) (es : List Expr) : Enlarges (arguments params es) :=
  (walks_arguments [] params es).enlarges

instance (recover : Bool) (b : Block) : Enlarges (block recover b) := (walks_block [] recover b).enlarges

instance (recover : Bool) (is : List BlockItem) : Enlarges (blockItems recover is) :=
  (walks_blockItems [] recover is).enlarges

instance (s : Stmt) : Enlarges (stmt s) := (walks_stmt [] s).enlarges

instance (s : Option Stmt) : Enlarges (stmt? s) := (walks_stmt? [] s).enlarges

instance (e : Option Expr) : Enlarges (expr? e) := (walks_expr? [] e).enlarges

instance (e : Option Expr) : Enlarges (condition? e) := (walks_condition? [] e).enlarges

instance (vs : List VarDecl) : Enlarges (varDecls vs) := (walks_varDecls [] vs).enlarges

instance (t : TypeId) (isGlobal : Bool) (i : Option Initializer) : Enlarges (initializer? t isGlobal i) :=
  (walks_initializer? [] t isGlobal i).enlarges

instance (t : TypeId) (isGlobal : Bool) (is : List Initializer) : Enlarges (elementInits t isGlobal is) :=
  (walks_elementInits [] t isGlobal is).enlarges

instance (t : TypeId) (isGlobal : Bool) (i : Initializer) : Enlarges (initializer t isGlobal i) :=
  (walks_initializer [] t isGlobal i).enlarges

instance (t : TypeId) (isGlobal : Bool) (span : Span) (is : List Initializer) :
    Enlarges (scalarInit t isGlobal span is) := (walks_scalarInit [] t isGlobal span is).enlarges

instance (e : Option Expr) : Enlarges (returned? e) := (walks_returned? [] e).enlarges

instance (i : Option LoopInit) : Enlarges (loopInit? i) := (walks_loopInit? [] i).enlarges

instance {act : Analysis α} [Enlarges act] : Enlarges (inScope act) :=
  ⟨fun s => Enlarges.within (x := act) { s with scope := s.scope.push }⟩

instance {act : Analysis α} [Enlarges act] : Enlarges (inLoop act) :=
  ⟨fun s => Enlarges.within (x := act) { s with loopDepth := s.loopDepth + 1 }⟩

instance {kind : Option MemberRef → ExprKind} {span : Span} {before : Option TypeId}
    {old : Option MemberRef} {c : Check MemberRef} [Enlarges (outcome c)] :
    Enlarges (memberExpr kind span before old c) :=
  .check (fun _ => inferInstanceAs (Enlarges (pure _))) fun _ => inferInstanceAs (Enlarges (pure _))

instance {kind : ExprKind} {span : Span} {before : Option TypeId} {c : Check Nat} [Enlarges (outcome c)] :
    Enlarges (folded kind span before c) :=
  .check (fun _ => ⟨fun _ => .refl _⟩) fun _ => inferInstanceAs (Enlarges (pure _))

/-! Related trees. -/

/-- Expressions of kin types; the type of a value is not always that in the tree. -/
structure KinExpr (F : Fork) (q : Pair) (e : Expr) (t : TypeId) (e' : Expr) (t' : TypeId) : Prop where
  alike : Alike e e'
  noted : Option.Rel (Kin F q) e.ty e'.ty
  type : Kin F q t t'

theorem KinExpr.mono {F : Fork} {e e' : Expr} {t t' : TypeId} (h : KinExpr F p e t e' t') (hle : p ≤ q) :
    KinExpr F q e t e' t' :=
  ⟨h.alike, rel_mono h.noted fun _ _ ht => ht.mono hle, h.type.mono hle⟩

/-- Nothing is said of the trees. -/
def Any (_ : Pair) (_ : τ) (_ : β) (_ : τ) (_ : β) : Prop := True

theorem rel_getLast? {α β : Type} {R : α → β → Prop} {xs : List α} {ys : List β}
    (h : List.Forall₂ R xs ys) : Option.Rel R xs.getLast? ys.getLast? := by
  induction h with
  | nil => exact .none
  | @cons x y xs ys hxy hxs ih =>
    rw [List.getLast?_cons, List.getLast?_cons]
    revert ih
    generalize xs.getLast? = a
    generalize ys.getLast? = b
    rintro (hab | _)
    · exact .some hab
    · exact .some hxy

theorem alike_of_constant {k k' : ExprKind} {span : Span} {t t' : Option TypeId}
    (hlvalue : isLvalueKind k = isLvalueKind k') (hconstant : k.constant? = k'.constant?) :
    Alike ⟨k, span, t⟩ ⟨k', span, t'⟩ := by
  refine ⟨rfl, ?_, ?_⟩
  · rw [isLvalue, isLvalue, hlvalue]
  · rw [Expr.constant?, Expr.constant?, hconstant]

namespace Twin

theorem typed {kind kind' : ExprKind} {span : Span} {before before' : Option TypeId} {c c' : Check TypeId}
    (hc : TwinCheck W p c c' fun q => Kin W.fork q)
    (h : ∀ t t', Alike ⟨kind, span, some t⟩ ⟨kind', span, some t'⟩) :
    Twin W p (typed kind span before c) (Typing.typed kind' span before' c')
      (Agree (KinExpr W.fork)) :=
  Twin.check hc
    (fun _ _ _ t t' ht => .pure fun _ hle _ => .ok ⟨h t t', .some (ht.mono hle), ht.mono hle⟩)
    fun _ e => .pure fun _ _ _ => .error e

theorem memberExpr {kind kind' : Option MemberRef → ExprKind} {span : Span}
    {before before' : Option TypeId} {old old' : Option MemberRef} {c c' : Check MemberRef}
    (hc : TwinCheck W p c c' fun q => KinRef W.fork q)
    (h : ∀ m m' t t', Alike ⟨kind m, span, t⟩ ⟨kind' m', span, t'⟩) :
    Twin W p (memberExpr kind span before old c) (Typing.memberExpr kind' span before' old' c')
      (Agree (KinExpr W.fork)) :=
  Twin.check hc
    (fun _ _ _ _ _ hm => .pure fun _ hle _ =>
      .ok ⟨h _ _ _ _, .some (hm.ty.mono hle), hm.ty.mono hle⟩)
    fun _ e => .pure fun _ _ _ => .error e

theorem folded {kind kind' : ExprKind} {span : Span} {before before' : Option TypeId} {c c' : Check Nat}
    (hc : TwinCheck W p c c' fun _ => Eq) :
    Twin W p (folded kind span before c) (Typing.folded kind' span before' c')
      (Agree (KinExpr W.fork)) := by
  have henlarges (n : Nat) : Enlarges (do
      let t := (← get).registry.cLong false
      return ((⟨.integer (Int64.ofNat n), span, some t⟩, .ok t) : Expr × Verdict TypeId)) :=
    ⟨fun _ => .refl _⟩
  refine Twin.check hc (fun q _ _ n n' hn => ?_) fun _ e => .pure fun _ _ _ => .error e
  subst hn
  refine .get_bind fun s s' hlinked _ => .pure fun q hle _ => ?_
  have hlong := (kin_cLong hlinked.registry false).mono hle
  exact .ok ⟨alike_of_constant rfl rfl, .some hlong, hlong⟩

theorem inScope {act act' : Analysis α} {R : Pair → α → α → Prop} (h : Twin W p act act' R) :
    Twin W p (inScope act) (Typing.inScope act') R := fun s s' hlinked hle => by
  rcases h { s with scope := s.scope.push } { s' with scope := s'.scope.push }
    { hlinked with scope := hlinked.scope.push } hle with hm | hfull
  · exact .inl ⟨{ hm.linked with scope := hm.linked.scope.pop }, hm.grows, hm.related⟩
  · exact .inr hfull

theorem inLoop {act act' : Analysis α} {R : Pair → α → α → Prop} (h : Twin W p act act' R) :
    Twin W p (inLoop act) (Typing.inLoop act') R := fun s s' hlinked hle => by
  rcases h { s with loopDepth := s.loopDepth + 1 } { s' with loopDepth := s'.loopDepth + 1 }
    { hlinked with loops := congrArg (· + 1) hlinked.loops } hle with hm | hfull
  · exact .inl ⟨{ hm.linked with loops := congrArg (· - 1) hm.linked.loops }, hm.grows, hm.related⟩
  · exact .inr hfull

/-- A last check of a tree. -/
theorem finish {c c' : Check β} {t t' : τ} {Q : Pair → β → β → Prop} {R : Pair → τ → β → τ → β → Prop}
    (hc : TwinCheck W p c c' Q)
    (h : ∀ q, p ≤ q → ∀ b b', Q q b b' → ∀ q', q ≤ q' → R q' t b t' b') :
    Twin W p (outcome c >>= fun v => Pure.pure (t, v)) (outcome c' >>= fun v => Pure.pure (t', v))
      (Agree R) :=
  Twin.check hc (fun q hle _ b b' hb => .pure fun q' hle' _ => .ok (h q hle b b' hb q' hle'))
    fun _ e => .pure fun _ _ _ => .error e

end Twin

theorem kin_integerType (hA : Akin W.fork p) (n : Int64) :
    Kin W.fork p (integerType n) (integerType n) := by
  unfold integerType
  split
  · exact kin_cInt hA
  · exact kin_int hA true (by decide)

theorem twin_blockType {b b' : Block}
    (h : Option.Rel (Kin W.fork p) (b.trailing?.bind (·.ty)) (b'.trailing?.bind (·.ty))) (span : Span) :
    TwinCheck W p (blockType b span) (blockType b' span) fun q => Kin W.fork q := by
  unfold blockType
  revert h
  generalize b.trailing?.bind (·.ty) = x
  generalize b'.trailing?.bind (·.ty) = x'
  rintro (ht | _)
  · exact .decay ht span
  · exact .pure fun _ _ hA => kin_void hA

/-- Items whose expressions, if they are expression statements, have kin types. -/
def KinItem (F : Fork) (q : Pair) (i i' : BlockItem) : Prop := Option.Rel (Kin F q) i.ty? i'.ty?

theorem KinItem.mono {F : Fork} {i i' : BlockItem} (h : KinItem F p i i') (hle : p ≤ q) :
    KinItem F q i i' :=
  rel_mono h fun _ _ ht => ht.mono hle

/-- Blocks whose values have kin types. A block that goes on after a failure is no value. -/
def KinBlock (recover : Bool) (F : Fork) (q : Pair) (b : Block) (_ : Unit) (b' : Block) (_ : Unit) : Prop :=
  recover = false → Option.Rel (Kin F q) (b.trailing?.bind (·.ty)) (b'.trailing?.bind (·.ty))

/-- What lists for kin types initialize. -/
inductive KinTarget (F : Fork) (p : Pair) : ListTarget → ListTarget → Prop
  | elements {t t' n} : Kin F p t t' → KinTarget F p (.elements t n) (.elements t' n)
  | members {ts ts'} : List.Forall₂ (Kin F p) ts ts' → KinTarget F p (.members ts) (.members ts')
  | scalar : KinTarget F p .scalar .scalar

theorem kin_listTarget {F : Fork} {t t' : TypeId} (hA : Akin F p) (h : Kin F p t t') :
    KinTarget F p (listTarget p.left t) (listTarget p.right t') := by
  have hstruct := h.asStruct? hA
  cases h with
  | array h h' hu =>
    rw [listTarget, listTarget, h.2, h'.2]
    exact .elements hu
  | struct h h' hs =>
    rw [Registry.asStruct?, Registry.asStruct?, h.2, h'.2] at hstruct
    rw [listTarget, listTarget, h.2, h'.2]
    cases hstruct with
    | some hstruct =>
      refine .members ?_
      rw [List.forall₂_map_left_iff, List.forall₂_map_right_iff]
      exact hstruct.members.imp fun _ _ hm => hm.ty
  | void h h' | int h h' | pointer h h' =>
    rw [listTarget, listTarget, h.2, h'.2]
    exact .scalar

theorem twin_callee (callee : Expr) (count : Nat) (span : Span) :
    TwinCheck W p
      (do
        let (ret, g) ← calledFunction callee
        checkArgumentCount g count span
        return (ret, g))
      (do
        let (ret, g) ← calledFunction callee
        checkArgumentCount g count span
        return (ret, g)) fun q => KinCallee W.fork q := by
  have henlarges : ∀ f : TypeId × Signature, Enlarges (outcome (do
      checkArgumentCount f.2 count span
      return (f.1, f.2))) := fun f => inferInstance
  refine TwinCheck.bind (twin_calledFunction callee) fun q _ _ f f' hf => ?_
  exact (twin_checkArgumentCount hf.2 count span).bind fun _ hle _ _ _ _ =>
    .pure fun _ hle' _ => ⟨hf.1.mono (hle.trans hle'), hf.2.mono (hle.trans hle')⟩

theorem twin_checkVariable (v : VarDecl) (h : W.Clear v.ty.specs) :
    TwinCheck W p (checkVariable v) (checkVariable v) fun q => Kin W.fork q := by
  refine (twin_resolveObject v.ty v.init h).bind fun q _ _ t t' ht => .registry_bind fun q₁ hle _ => ?_
  rw [(ht.mono hle).isVoid]
  exact .guard Iff.rfl (.throw _) (.pure fun _ hle' _ => ht.mono (hle.trans hle'))

theorem enlarges_memberInits (isGlobal : Bool) : ∀ (ts : List TypeId) (is : List Initializer),
    Enlarges (memberInits ts isGlobal is)
  | _, [] => by
    rw [memberInits]
    infer_instance
  | [], i :: is => by
    rw [memberInits]
    infer_instance
  | t :: ts, i :: is => by
    rw [memberInits]
    have := enlarges_memberInits isGlobal ts is
    infer_instance

instance (ts : List TypeId) (isGlobal : Bool) (is : List Initializer) :
    Enlarges (memberInits ts isGlobal is) :=
  enlarges_memberInits isGlobal ts is

mutual

theorem twin_expr (p : Pair) : ∀ e, W.Clear e.script.specs →
    Twin W p (expr e) (expr e) (Agree (KinExpr W.fork))
  | ⟨kind, span, ty⟩, h => by
    rw [expr]
    rw [Expr.script] at h
    exact twin_exprKind p span ty kind h

theorem twin_value (p : Pair) : ∀ e, W.Clear e.script.specs →
    Twin W p (value e) (value e) (Agree (KinExpr W.fork))
  | ⟨kind, span, ty⟩, h => by
    rw [value]
    rw [Expr.script] at h
    refine (twin_exprKind p span ty kind h).bind (fun q _ _ e t e' t' he => ?_)
      fun _ _ _ _ => .still (fun _ => ⟨_, rfl⟩) fun _ => ⟨_, rfl⟩
    exact .finish (.given (.decay he.type span)) fun q' hle u u' hu r hr =>
      ⟨he.alike, rel_mono he.noted fun _ _ ht => ht.mono (hle.trans hr), hu.mono hr⟩

theorem twin_exprKind (p : Pair) (span : Span) (ty : Option TypeId) : ∀ k, W.Clear k.script.specs →
    Twin W p (exprKind span ty k) (exprKind span ty k) (Agree (KinExpr W.fork))
  | .integer n, _ => by
    rw [exprKind]
    exact .typed (.pure fun _ _ hA => kin_integerType hA n) fun t t' => alike_of_constant rfl rfl
  | .character b, _ => by
    rw [exprKind]
    exact .typed (.pure fun _ _ hA => kin_cInt hA) fun t t' => alike_of_constant rfl rfl
  | .string text, _ => by
    rw [exprKind]
    exact .typed (.akin fun _ _ hA => .arrayOf (kin_cChar hA) _ _) fun t t' => alike_of_constant rfl rfl
  | .name name, _ => by
    rw [exprKind]
    exact .typed (twin_nameType name span) fun t t' => alike_of_constant rfl rfl
  | .binary op left right, h => by
    rw [exprKind]
    rw [ExprKind.script, Script.specs_append] at h
    obtain ⟨hl, hr⟩ := clear_append.mp h
    refine (twin_value p left hl).bind (fun q _ _ l t l' t' hl => ?_)
      fun _ _ _ _ => .still (fun _ => ⟨_, rfl⟩) fun _ => ⟨_, rfl⟩
    refine Twin.bind (twin_value q right hr) (fun q' hle _ r u r' u' hr => ?_)
      fun _ _ _ _ => .still (fun _ => ⟨_, rfl⟩) fun _ => ⟨_, rfl⟩
    refine .typed (.given (.given (.rule fun s hs hA =>
      both_binaryType hA op (hl.type.mono (hle.trans hs)) (hr.type.mono hs) span))) fun t t' =>
        alike_of_constant rfl ?_
    rw [ExprKind.constant?, ExprKind.constant?, hl.alike.constant, hr.alike.constant]
  | .unary op operand, h => by
    rw [exprKind]
    rw [ExprKind.script] at h
    refine (twin_value p operand h).bind (fun q _ _ e t e' t' he => ?_)
      fun _ _ _ _ => .still (fun _ => ⟨_, rfl⟩) fun _ => ⟨_, rfl⟩
    refine .typed (.given (.rule fun s hs hA => ?_)) fun t t' => alike_of_constant rfl ?_
    · rw [he.alike.span]
      exact both_unaryType hA op (he.type.mono hs) _ span
    · cases op with
      | neg => rw [ExprKind.constant?, ExprKind.constant?, he.alike.constant]
      | not | bitNot => rfl
  | .assign op target source, h => by
    rw [exprKind]
    rw [ExprKind.script, Script.specs_append] at h
    obtain ⟨ht, hs⟩ := clear_append.mp h
    refine (twin_expr p target ht).bind (fun q _ _ e t e' t' he => ?_)
      fun _ _ _ _ => .still (fun _ => ⟨_, rfl⟩) fun _ => ⟨_, rfl⟩
    refine Twin.check (.given (twin_checkTarget he.type he.alike)) (fun q₁ hle _ _ _ _ => ?_)
      fun _ _ => .still (fun _ => ⟨_, rfl⟩) fun _ => ⟨_, rfl⟩
    refine Twin.bind (twin_value q₁ source hs) (fun q₂ hle' _ v u v' u' hv => ?_)
      fun _ _ _ _ => .still (fun _ => ⟨_, rfl⟩) fun _ => ⟨_, rfl⟩
    exact .typed (.given (.given (.given
      (twin_checkAssignment op (he.type.mono (hle.trans hle')) hv.type hv.alike span))))
      fun t t' => alike_of_constant rfl rfl
  | .conditional cond yes no, h => by
    rw [exprKind]
    rw [ExprKind.script, Script.specs_append, Script.specs_append] at h
    obtain ⟨hc, h⟩ := clear_append.mp h
    obtain ⟨hy, hn⟩ := clear_append.mp h
    refine (twin_condition p cond hc).bind (fun q _ _ c _ c' _ _ => ?_)
      fun _ _ _ _ => .still (fun _ => ⟨_, rfl⟩) fun _ => ⟨_, rfl⟩
    refine Twin.bind (twin_value q yes hy) (fun q₁ _ _ y t y' t' hy => ?_)
      fun _ _ _ _ => .still (fun _ => ⟨_, rfl⟩) fun _ => ⟨_, rfl⟩
    refine Twin.bind (twin_value q₁ no hn) (fun q₂ hle _ n u n' u' hn => ?_)
      fun _ _ _ _ => .still (fun _ => ⟨_, rfl⟩) fun _ => ⟨_, rfl⟩
    exact .typed (.given (.given (.given (.rule fun s hs hA => both_conditionalType hA
      (hy.type.mono (hle.trans hs)) (hn.type.mono hs) hy.alike hn.alike span))))
      fun t t' => alike_of_constant rfl rfl
  | .call callee args, h => by
    rw [exprKind]
    rw [ExprKind.script, Script.specs_append] at h
    refine Twin.chain (twin_callee callee args.length span) ?_ ?_ fun q _ _ f f' hf => ?_
    · rintro (e | ⟨ret, g⟩) <;> infer_instance
    · rintro (e | ⟨ret, g⟩) <;> infer_instance
    cases hf with
    | error e => exact .still (fun _ => ⟨_, rfl⟩) fun _ => ⟨_, rfl⟩
    | @ok f f' hf =>
      obtain ⟨ret, g⟩ := f
      obtain ⟨ret', g'⟩ := f'
      obtain ⟨hret, hg⟩ : Kin W.fork q ret ret' ∧ KinSig W.fork q g g' := hf
      refine Twin.bind (twin_arguments q hg.params args (clear_append.mp h).2)
        (fun q₁ hle _ as _ as' _ _ => ?_) fun _ _ _ _ => .still (fun _ => ⟨_, rfl⟩) fun _ => ⟨_, rfl⟩
      exact .typed (.given (.pure fun _ hle' _ => hret.mono (hle.trans hle')))
        fun t t' => alike_of_constant rfl rfl
  | .index array subscript, h => by
    rw [exprKind]
    rw [ExprKind.script, Script.specs_append] at h
    obtain ⟨ha, hi⟩ := clear_append.mp h
    refine (twin_expr p array ha).bind (fun q _ _ a t a' t' ha => ?_)
      fun _ _ _ _ => .still (fun _ => ⟨_, rfl⟩) fun _ => ⟨_, rfl⟩
    refine Twin.bind (twin_value q subscript hi) (fun q₁ hle _ i u i' u' hi => ?_)
      fun _ _ _ _ => .still (fun _ => ⟨_, rfl⟩) fun _ => ⟨_, rfl⟩
    exact .typed (.given (.given (twin_checkIndex (ha.type.mono hle) hi.type hi.alike span)))
      fun t t' => alike_of_constant rfl rfl
  | .member object field old, h => by
    rw [exprKind]
    rw [ExprKind.script] at h
    refine (twin_expr p object h).bind (fun q _ _ o t o' t' ho => ?_)
      fun _ _ _ _ => .still (fun _ => ⟨_, rfl⟩) fun _ => ⟨_, rfl⟩
    refine .memberExpr (.given (.rule fun s hs hA => both_memberOf hA (ho.type.mono hs) field span))
      fun m m' t t' => alike_of_constant ?_ rfl
    rw [isLvalueKind, isLvalueKind, ho.alike.lvalue]
  | .pointerMember pointer field old, h => by
    rw [exprKind]
    rw [ExprKind.script] at h
    refine (twin_value p pointer h).bind (fun q _ _ o t o' t' ho => ?_)
      fun _ _ _ _ => .still (fun _ => ⟨_, rfl⟩) fun _ => ⟨_, rfl⟩
    exact .memberExpr (.given (.rule fun s hs hA =>
      both_pointerMemberOf hA (ho.type.mono hs) field span))
      fun m m' t t' => alike_of_constant rfl rfl
  | .cast target operand, h => by
    rw [exprKind]
    rw [ExprKind.script, Script.specs_written] at h
    obtain ⟨ht, ho⟩ := clear_append.mp h
    refine Twin.check (twin_resolveAt p 1 target ht) (fun q _ _ t t' ht => ?_)
      fun _ _ => .still (fun _ => ⟨_, rfl⟩) fun _ => ⟨_, rfl⟩
    refine Twin.bind (twin_value q operand ho) (fun q₁ hle _ o u o' u' ho => ?_)
      fun _ _ _ _ => .still (fun _ => ⟨_, rfl⟩) fun _ => ⟨_, rfl⟩
    refine .typed (.given (.given (.rule fun s hs hA => ?_))) fun t t' => alike_of_constant rfl rfl
    rw [ho.alike.span]
    exact both_checkCast hA (ht.mono (hle.trans hs)) (ho.type.mono hs) _ span
  | .query op operand, h => by
    rw [exprKind]
    rw [ExprKind.script] at h
    refine (twin_expr p operand h).bind (fun q _ _ o t o' t' ho => ?_)
      fun _ _ _ _ => .still (fun _ => ⟨_, rfl⟩) fun _ => ⟨_, rfl⟩
    refine .folded (.given (.same fun s hs hA => ?_))
    rw [ho.alike.span]
    exact checkQuery_eq hA op (ho.type.mono hs) _
  | .typeQuery op target, h => by
    rw [exprKind]
    rw [ExprKind.script, Script.specs_written] at h
    exact .folded ((twin_resolveAt p 1 target (clear_append.mp h).1).bind fun q _ _ t t' ht =>
      .same fun s hs hA => checkQuery_eq hA op (ht.mono hs) _)
  | .addressOf operand, h => by
    rw [exprKind]
    rw [ExprKind.script] at h
    refine (twin_expr p operand h).bind (fun q _ _ o t o' t' ho => ?_)
      fun _ _ _ _ => .still (fun _ => ⟨_, rfl⟩) fun _ => ⟨_, rfl⟩
    exact .typed (.given (twin_addressType ho.type ho.alike span)) fun t t' => alike_of_constant rfl rfl
  | .deref operand, h => by
    rw [exprKind]
    rw [ExprKind.script] at h
    refine (twin_value p operand h).bind (fun q _ _ o t o' t' ho => ?_)
      fun _ _ _ _ => .still (fun _ => ⟨_, rfl⟩) fun _ => ⟨_, rfl⟩
    exact .typed (.given (.rule fun s hs hA => both_derefType hA (ho.type.mono hs) span))
      fun t t' => alike_of_constant rfl rfl
  | .step operand decrement yieldsOld, h => by
    rw [exprKind]
    rw [ExprKind.script] at h
    refine (twin_expr p operand h).bind (fun q _ _ o t o' t' ho => ?_)
      fun _ _ _ _ => .still (fun _ => ⟨_, rfl⟩) fun _ => ⟨_, rfl⟩
    exact .typed (.given (twin_checkStepped ho.type ho.alike span)) fun t t' => alike_of_constant rfl rfl
  | .comma items, h => by
    rw [exprKind]
    rw [ExprKind.script] at h
    refine .akin fun q _ hA => ?_
    refine (twin_values q (kin_void hA) items h).bind (fun q₁ _ _ is t is' t' ht => ?_)
      fun _ _ _ _ => .still (fun _ => ⟨_, rfl⟩) fun _ => ⟨_, rfl⟩
    exact .typed (.given (.pure fun _ hle _ => ht.mono hle)) fun t t' => alike_of_constant rfl rfl
  | .block b, h => by
    rw [exprKind]
    rw [ExprKind.script, Script.specs_scope, Script.specs_done, List.append_nil] at h
    refine Twin.bind (.inScope ((twin_block p false b h).bind (fun q _ _ b _ b' _ hb =>
      .finish (R := fun q _ t _ t' => Kin W.fork q t t') (.given (twin_blockType (hb rfl) span))
        fun _ _ _ _ ht _ hle => ht.mono hle)
      fun _ _ _ _ => .still (fun _ => ⟨_, rfl⟩) fun _ => ⟨_, rfl⟩)) (fun q _ _ b t b' t' ht => ?_)
      fun _ _ _ _ => .still (fun _ => ⟨_, rfl⟩) fun _ => ⟨_, rfl⟩
    exact .typed (.given (.pure fun _ hle _ => ht.mono hle)) fun t t' => alike_of_constant rfl rfl

theorem twin_condition (p : Pair) : ∀ e, W.Clear e.script.specs →
    Twin W p (condition e) (condition e) (Agree Any)
  | ⟨kind, span, ty⟩, h => by
    rw [condition]
    rw [Expr.script] at h
    refine (twin_exprKind p span ty kind h).bind (fun q _ _ e t e' t' he => ?_)
      fun _ _ _ _ => .still (fun _ => ⟨_, rfl⟩) fun _ => ⟨_, rfl⟩
    exact .finish (.given ((TwinCheck.decay he.type span).bind fun q' _ _ u u' hu =>
      .allows fun s hs hA => checkCondition_eq hA (hu.mono hs) span)) fun _ _ _ _ _ _ _ => trivial

theorem twin_values (p : Pair) {last last' : TypeId} (hlast : Kin W.fork p last last') : ∀ es,
    W.Clear (scriptOfExprs es).specs →
    Twin W p (values last es) (values last' es) (Agree fun q _ t _ t' => Kin W.fork q t t')
  | [], _ => by
    rw [values, values]
    exact .pure fun q hle _ => .ok (hlast.mono hle)
  | e :: es, h => by
    rw [values, values]
    rw [scriptOfExprs, Script.specs_append] at h
    obtain ⟨he, hes⟩ := clear_append.mp h
    refine (twin_value p e he).bind (fun q _ _ e t e' t' he => ?_)
      fun _ _ _ _ => .still (fun _ => ⟨_, rfl⟩) fun _ => ⟨_, rfl⟩
    exact Twin.bind (twin_values q he.type es hes) (fun q₁ _ _ is t is' t' ht =>
      .pure fun _ hle _ => .ok (ht.mono hle))
      fun _ _ _ e => .pure fun _ _ _ => .error e

theorem twin_arguments (p : Pair) {params params' : List TypeId}
    (hparams : List.Forall₂ (Kin W.fork p) params params') : ∀ es, W.Clear (scriptOfExprs es).specs →
    Twin W p (arguments params es) (arguments params' es) (Agree Any)
  | [], _ => by
    rw [arguments, arguments]
    exact .pure fun _ _ _ => .ok trivial
  | e :: es, h => by
    rw [arguments, arguments]
    rw [scriptOfExprs, Script.specs_append] at h
    obtain ⟨he, hes⟩ := clear_append.mp h
    refine (twin_value p e he).bind (fun q hle _ e t e' t' he => ?_)
      fun _ _ _ _ => .still (fun _ => ⟨_, rfl⟩) fun _ => ⟨_, rfl⟩
    have hhead : Option.Rel (Kin W.fork q) params.head? params'.head? := by
      cases hparams with
      | nil => exact .none
      | cons hu _ => exact .some (hu.mono hle)
    have htail : List.Forall₂ (Kin W.fork p) params.tail params'.tail := by
      cases hparams with
      | nil => exact .nil
      | cons _ hus => exact hus
    refine Twin.check (.given (twin_checkArgument hhead he.type he.alike)) (fun q₁ hle₁ _ _ _ _ => ?_)
      fun _ _ => .still (fun _ => ⟨_, rfl⟩) fun _ => ⟨_, rfl⟩
    exact Twin.bind (twin_arguments q₁ (htail.imp fun _ _ hu => hu.mono (hle.trans hle₁)) es hes)
      (fun _ _ _ _ _ _ _ _ => .pure fun _ _ _ => .ok trivial) fun _ _ _ e => .pure fun _ _ _ => .error e

theorem twin_block (p : Pair) (recover : Bool) : ∀ b, W.Clear b.script.specs →
    Twin W p (block recover b) (block recover b) (Agree (KinBlock recover W.fork))
  | ⟨items, span⟩, h => by
    rw [block]
    rw [Block.script] at h
    refine (twin_blockItems p recover items h).bind (fun q _ _ is _ is' _ his => ?_)
      fun _ _ _ e => .pure fun _ _ _ => .error e
    refine .pure fun q' hle _ => .ok fun hfree => ?_
    rw [Block.trailing?_bind, Block.trailing?_bind]
    have hlast := rel_getLast? (his hfree)
    revert hlast
    generalize is.getLast? = i
    generalize is'.getLast? = i'
    rintro (hi | _)
    · exact rel_mono hi fun _ _ ht => ht.mono hle
    · exact .none

theorem twin_blockItems (p : Pair) (recover : Bool) : ∀ is, W.Clear (scriptOfItems is).specs →
    Twin W p (blockItems recover is) (blockItems recover is)
      (Agree fun q is _ is' _ => recover = false → List.Forall₂ (KinItem W.fork q) is is')
  | [], _ => by
    rw [blockItems]
    exact .pure fun _ _ _ => .ok fun _ => .nil
  | i :: is, h => by
    rw [blockItems]
    rw [scriptOfItems, Script.specs_append] at h
    obtain ⟨hi, his⟩ := clear_append.mp h
    refine (twin_blockItem p i hi).bind (fun q _ _ i _ i' _ hi => ?_) fun q i i' e => ?_
    · exact Twin.bind (twin_blockItems q recover is his) (fun q₁ hle _ is _ is' _ his =>
        .pure fun q₂ hle' _ => .ok fun hfree =>
          .cons (hi.mono (hle.trans hle')) ((his hfree).imp fun _ _ hi => hi.mono hle'))
        fun _ _ _ e => .pure fun _ _ _ => .error e
    · cases recover with
      | false => exact .still (fun _ => ⟨_, rfl⟩) fun _ => ⟨_, rfl⟩
      | true =>
        exact .recorded e (Twin.bind (twin_blockItems q true is his) (fun _ _ _ _ _ _ _ _ =>
          .pure fun _ _ _ => .ok fun hfree => by cases hfree) fun _ _ _ e => .pure fun _ _ _ => .error e)

theorem twin_blockItem (p : Pair) : ∀ i, W.Clear i.script.specs →
    Twin W p (blockItem i) (blockItem i) (Agree fun q i _ i' _ => KinItem W.fork q i i')
  | .statement s, h => by
    rw [blockItem]
    rw [BlockItem.script] at h
    exact (twin_stmt p s h).bind (fun _ _ _ _ _ _ _ hs => .pure fun _ hle _ => .ok (hs.mono hle))
      fun _ _ _ e => .pure fun _ _ _ => .error e
  | .declaration d, h => by
    rw [blockItem]
    rw [BlockItem.script] at h
    exact (twin_declaration p d h).bind (fun _ _ _ _ _ _ _ _ => .pure fun _ _ _ => .ok .none)
      fun _ _ _ e => .pure fun _ _ _ => .error e

theorem twin_stmt (p : Pair) : ∀ s, W.Clear s.script.specs →
    Twin W p (stmt s) (stmt s)
      (Agree fun q s _ s' _ => KinItem W.fork q (.statement s) (.statement s'))
  | ⟨kind, span⟩, h => by
    rw [stmt]
    rw [Stmt.script] at h
    exact (twin_stmtKind p span kind h).bind (fun _ _ _ _ _ _ _ hk => .pure fun _ hle _ =>
      .ok (rel_mono hk fun _ _ ht => ht.mono hle)) fun _ _ _ e => .pure fun _ _ _ => .error e

theorem twin_stmtKind (p : Pair) (span : Span) : ∀ k, W.Clear k.script.specs →
    Twin W p (stmtKind span k) (stmtKind span k)
      (Agree fun q k _ k' _ => Option.Rel (Kin W.fork q) k.ty? k'.ty?)
  | .expr e, h => by
    rw [stmtKind]
    rw [StmtKind.script] at h
    exact (twin_expr p e h).bind (fun _ _ _ _ _ _ _ he => .pure fun _ hle _ =>
      .ok (rel_mono he.noted fun _ _ ht => ht.mono hle)) fun _ _ _ e => .pure fun _ _ _ => .error e
  | .empty, _ => by
    rw [stmtKind]
    exact .pure fun _ _ _ => .ok .none
  | .block b, h => by
    rw [stmtKind]
    rw [StmtKind.script, Script.specs_scope, Script.specs_done, List.append_nil] at h
    exact Twin.bind (.inScope (twin_block p true b h))
      (fun _ _ _ _ _ _ _ _ => .pure fun _ _ _ => .ok .none) fun _ _ _ e => .pure fun _ _ _ => .error e
  | .if_ cond yes no, h => by
    rw [stmtKind]
    rw [StmtKind.script, Script.specs_append, Script.specs_append] at h
    obtain ⟨hc, h⟩ := clear_append.mp h
    obtain ⟨hy, hn⟩ := clear_append.mp h
    refine (twin_condition p cond hc).bind (fun q _ _ c _ c' _ _ => ?_)
      fun _ _ _ _ => .still (fun _ => ⟨_, rfl⟩) fun _ => ⟨_, rfl⟩
    refine Twin.bind (twin_stmt q yes hy) (fun q₁ _ _ y _ y' _ _ => ?_)
      fun _ _ _ _ => .still (fun _ => ⟨_, rfl⟩) fun _ => ⟨_, rfl⟩
    exact Twin.bind (twin_stmt? q₁ no hn) (fun _ _ _ _ _ _ _ _ => .pure fun _ _ _ => .ok .none)
      fun _ _ _ _ => .still (fun _ => ⟨_, rfl⟩) fun _ => ⟨_, rfl⟩
  | .loop kind init cond update body, h => by
    rw [stmtKind]
    rw [StmtKind.script, Script.specs_scope, Script.specs_append, Script.specs_done,
      List.append_nil] at h
    obtain ⟨hi, h⟩ := clear_append.mp h
    obtain ⟨hc, hu, hb⟩ : W.Clear (scriptOfExpr? cond).specs ∧ W.Clear (scriptOfExpr? update).specs ∧
        W.Clear body.script.specs := by
      split at h
      · simp only [Script.specs_append, clear_append] at h
        exact h
      · simp only [Script.specs_doWhile, Script.specs_append, Script.specs_done, List.append_nil,
          clear_append] at h
        exact ⟨h.2.1, h.2.2, h.1⟩
    refine .inScope ((twin_loopInit? p init hi).bind (fun q _ _ i _ i' _ _ => ?_)
      fun _ _ _ _ => .still (fun _ => ⟨_, rfl⟩) fun _ => ⟨_, rfl⟩)
    refine Twin.bind (twin_condition? q cond hc) (fun q₁ _ _ c _ c' _ _ => ?_)
      fun _ _ _ _ => .still (fun _ => ⟨_, rfl⟩) fun _ => ⟨_, rfl⟩
    refine Twin.bind (twin_expr? q₁ update hu) (fun q₂ _ _ u _ u' _ _ => ?_)
      fun _ _ _ _ => .still (fun _ => ⟨_, rfl⟩) fun _ => ⟨_, rfl⟩
    exact Twin.bind (.inLoop (twin_stmt q₂ body hb)) (fun _ _ _ _ _ _ _ _ => .pure fun _ _ _ => .ok .none)
      fun _ _ _ _ => .still (fun _ => ⟨_, rfl⟩) fun _ => ⟨_, rfl⟩
  | .break_, _ => by
    rw [stmtKind]
    exact .finish (twin_inLoopOr .breakOutsideLoop span) fun _ _ _ _ _ _ _ => .none
  | .continue_, _ => by
    rw [stmtKind]
    exact .finish (twin_inLoopOr .continueOutsideLoop span) fun _ _ _ _ _ _ _ => .none
  | .return_ e, h => by
    rw [stmtKind]
    rw [StmtKind.script] at h
    refine .get_bind fun s s' hlinked _ => ?_
    have hreturns := hlinked.returns
    revert hreturns
    generalize s.returns = x
    generalize s'.returns = x'
    rintro (_ | _)
    · exact Twin.bind (twin_returned? _ e h) (fun _ _ _ _ _ _ _ _ => .pure fun _ _ _ => .ok .none)
        fun _ _ _ _ => .still (fun _ => ⟨_, rfl⟩) fun _ => ⟨_, rfl⟩
    · exact .still (fun _ => ⟨_, rfl⟩) fun _ => ⟨_, rfl⟩

theorem twin_stmt? (p : Pair) : ∀ s, W.Clear (scriptOfStmt? s).specs →
    Twin W p (stmt? s) (stmt? s) (Agree Any)
  | none, _ => by
    rw [stmt?]
    exact .pure fun _ _ _ => .ok trivial
  | some s, h => by
    rw [stmt?]
    rw [scriptOfStmt?] at h
    exact (twin_stmt p s h).bind (fun _ _ _ _ _ _ _ _ => .pure fun _ _ _ => .ok trivial)
      fun _ _ _ e => .pure fun _ _ _ => .error e

theorem twin_expr? (p : Pair) : ∀ e, W.Clear (scriptOfExpr? e).specs →
    Twin W p (expr? e) (expr? e) (Agree Any)
  | none, _ => by
    rw [expr?]
    exact .pure fun _ _ _ => .ok trivial
  | some e, h => by
    rw [expr?]
    rw [scriptOfExpr?] at h
    exact (twin_expr p e h).bind (fun _ _ _ _ _ _ _ _ => .pure fun _ _ _ => .ok trivial)
      fun _ _ _ e => .pure fun _ _ _ => .error e

theorem twin_condition? (p : Pair) : ∀ e, W.Clear (scriptOfExpr? e).specs →
    Twin W p (condition? e) (condition? e) (Agree Any)
  | none, _ => by
    rw [condition?]
    exact .pure fun _ _ _ => .ok trivial
  | some e, h => by
    rw [condition?]
    rw [scriptOfExpr?] at h
    exact (twin_condition p e h).bind (fun _ _ _ _ _ _ _ _ => .pure fun _ _ _ => .ok trivial)
      fun _ _ _ e => .pure fun _ _ _ => .error e

theorem twin_returned? (p : Pair) : ∀ e, W.Clear (scriptOfExpr? e).specs →
    Twin W p (returned? e) (returned? e) (Agree Any)
  | none, _ => by
    rw [returned?]
    exact .pure fun _ _ _ => .ok trivial
  | some e, h => by
    rw [returned?]
    rw [scriptOfExpr?] at h
    exact (twin_value p e h).bind (fun _ _ _ _ _ _ _ he =>
      .finish (twin_checkReturn he.type he.alike) fun _ _ _ _ _ _ _ => trivial)
      fun _ _ _ e => .still (fun _ => ⟨_, rfl⟩) fun _ => ⟨_, rfl⟩

theorem twin_loopInit? (p : Pair) : ∀ i, W.Clear (scriptOfInit? i).specs →
    Twin W p (loopInit? i) (loopInit? i) (Agree Any)
  | none, _ => by
    rw [loopInit?]
    exact .pure fun _ _ _ => .ok trivial
  | some i, h => by
    rw [loopInit?]
    rw [scriptOfInit?] at h
    exact (twin_loopInit p i h).bind (fun _ _ _ _ _ _ _ _ => .pure fun _ _ _ => .ok trivial)
      fun _ _ _ e => .pure fun _ _ _ => .error e

theorem twin_loopInit (p : Pair) : ∀ i, W.Clear i.script.specs →
    Twin W p (loopInit i) (loopInit i) (Agree Any)
  | .expr e, h => by
    rw [loopInit]
    rw [LoopInit.script] at h
    exact (twin_expr p e h).bind (fun _ _ _ _ _ _ _ _ => .pure fun _ _ _ => .ok trivial)
      fun _ _ _ e => .pure fun _ _ _ => .error e
  | .declaration d, h => by
    rw [loopInit]
    rw [LoopInit.script] at h
    exact (twin_declaration p d h).bind (fun _ _ _ _ _ _ _ _ => .pure fun _ _ _ => .ok trivial)
      fun _ _ _ e => .pure fun _ _ _ => .error e

theorem twin_declaration (p : Pair) : ∀ d, W.Clear d.script.specs →
    Twin W p (declaration d) (declaration d) (Agree Any)
  | ⟨kind, span⟩, h => by
    rw [declaration]
    rw [Declaration.script] at h
    exact (twin_declKind p kind h).bind (fun _ _ _ _ _ _ _ _ => .pure fun _ _ _ => .ok trivial)
      fun _ _ _ e => .pure fun _ _ _ => .error e

theorem twin_declKind (p : Pair) : ∀ k, W.Clear k.script.specs →
    Twin W p (declKind k) (declKind k) (Agree Any)
  | .vars vars, h => by
    rw [declKind]
    rw [DeclKind.script] at h
    exact (twin_varDecls p vars h).bind (fun _ _ _ _ _ _ _ _ => .pure fun _ _ _ => .ok trivial)
      fun _ _ _ e => .pure fun _ _ _ => .error e
  | .struct spec, h => by
    rw [declKind]
    rw [DeclKind.script, Script.specs_written] at h
    have hcheck : TwinCheck W p (checkStructDecl spec) (checkStructDecl spec) fun _ _ _ => True := by
      unfold checkStructDecl
      exact .guard Iff.rfl (.throw _) ((twin_resolveSpec p 1 spec (clear_append.mp h).1).bind
        fun _ _ _ _ _ _ => .pure fun _ _ _ => trivial)
    exact .finish hcheck fun _ _ _ _ _ _ _ => trivial

theorem twin_varDecls (p : Pair) : ∀ vs, W.Clear (scriptOfVars vs).specs →
    Twin W p (varDecls vs) (varDecls vs) (Agree Any)
  | [], _ => by
    rw [varDecls]
    exact .pure fun _ _ _ => .ok trivial
  | v :: vs, h => by
    rw [varDecls]
    rw [scriptOfVars, Script.specs_append] at h
    obtain ⟨hv, hvs⟩ := clear_append.mp h
    refine (twin_varDecl p v hv).bind (fun q _ _ v _ v' _ _ => ?_)
      fun _ _ _ _ => .still (fun _ => ⟨_, rfl⟩) fun _ => ⟨_, rfl⟩
    exact Twin.bind (twin_varDecls q vs hvs) (fun _ _ _ _ _ _ _ _ => .pure fun _ _ _ => .ok trivial)
      fun _ _ _ e => .pure fun _ _ _ => .error e

theorem twin_varDecl (p : Pair) : ∀ v, W.Clear v.script.specs →
    Twin W p (varDecl v) (varDecl v) (Agree Any)
  | ⟨name, ty, init, span, resolved⟩, h => by
    rw [varDecl]
    rw [VarDecl.script, Script.specs_written] at h
    obtain ⟨hty, hinit⟩ := clear_append.mp h
    refine Twin.check (twin_checkVariable ⟨name, ty, init, span, resolved⟩ hty) (fun q _ _ t t' ht => ?_)
      fun _ _ => .still (fun _ => ⟨_, rfl⟩) fun _ => ⟨_, rfl⟩
    refine .get_bind fun s s' hlinked hle => ?_
    rw [hlinked.scope.isGlobal]
    have hsymbol : KinSymbol W.fork (s.with s') ⟨name, .variable s'.scope.isGlobal, t, span⟩
        ⟨name, .variable s'.scope.isGlobal, t', span⟩ := ⟨rfl, .variable _, ht.mono hle, rfl⟩
    refine Twin.check (.define hsymbol) (fun q₁ hle₁ _ _ _ _ => ?_)
      fun _ _ => .still (fun _ => ⟨_, rfl⟩) fun _ => ⟨_, rfl⟩
    exact Twin.bind (twin_initializer? q₁ (ht.mono (hle.trans hle₁)) s'.scope.isGlobal init hinit)
      (fun _ _ _ _ _ _ _ _ => .pure fun _ _ _ => .ok trivial) fun _ _ _ e => .pure fun _ _ _ => .error e

theorem twin_initializer? (p : Pair) {t t' : TypeId} (ht : Kin W.fork p t t') (isGlobal : Bool) : ∀ i,
    W.Clear (scriptOfInitializer? i).specs →
    Twin W p (initializer? t isGlobal i) (initializer? t' isGlobal i) (Agree Any)
  | none, _ => by
    rw [initializer?, initializer?]
    exact .pure fun _ _ _ => .ok trivial
  | some i, h => by
    rw [initializer?, initializer?]
    rw [scriptOfInitializer?] at h
    exact (twin_initializer p ht isGlobal i h).bind
      (fun _ _ _ _ _ _ _ _ => .pure fun _ _ _ => .ok trivial) fun _ _ _ e => .pure fun _ _ _ => .error e

theorem twin_initializer (p : Pair) {t t' : TypeId} (ht : Kin W.fork p t t') (isGlobal : Bool) : ∀ i,
    W.Clear i.script.specs →
    Twin W p (initializer t isGlobal i) (initializer t' isGlobal i) (Agree Any)
  | .expr e, h => by
    rw [initializer, initializer]
    rw [Initializer.script] at h
    exact (twin_initialValue p ht isGlobal e h).bind
      (fun _ _ _ _ _ _ _ _ => .pure fun _ _ _ => .ok trivial) fun _ _ _ e => .pure fun _ _ _ => .error e
  | .list items span, h => by
    rw [initializer, initializer]
    rw [Initializer.script] at h
    refine .get_bind fun s s' hlinked hle => ?_
    have htarget := kin_listTarget hlinked.registry (ht.mono hle)
    revert htarget
    rw [show (s.with s').left = s.registry from rfl, show (s.with s').right = s'.registry from rfl]
    generalize listTarget s.registry t = x
    generalize listTarget s'.registry t' = x'
    rintro (@⟨u, u', n, hu⟩ | @⟨ts, ts', hts⟩ | _)
    · refine Twin.check (twin_checkExcess .excessInArray items n) (fun q hq _ _ _ _ => ?_)
        fun _ _ => .still (fun _ => ⟨_, rfl⟩) fun _ => ⟨_, rfl⟩
      exact Twin.bind (twin_elementInits q (hu.mono hq) isGlobal items h)
        (fun _ _ _ _ _ _ _ _ => .pure fun _ _ _ => .ok trivial) fun _ _ _ e => .pure fun _ _ _ => .error e
    · simp only [hts.length_eq]
      refine Twin.check (twin_checkExcess .excessInStruct items ts'.length) (fun q hq _ _ _ _ => ?_)
        fun _ _ => .still (fun _ => ⟨_, rfl⟩) fun _ => ⟨_, rfl⟩
      exact Twin.bind (twin_memberInits q (hts.imp fun _ _ hu => hu.mono hq) isGlobal items h)
        (fun _ _ _ _ _ _ _ _ => .pure fun _ _ _ => .ok trivial) fun _ _ _ e => .pure fun _ _ _ => .error e
    · exact Twin.bind (twin_scalarInit _ (ht.mono hle) isGlobal span items h)
        (fun _ _ _ _ _ _ _ _ => .pure fun _ _ _ => .ok trivial) fun _ _ _ e => .pure fun _ _ _ => .error e

theorem twin_initialValue (p : Pair) {t t' : TypeId} (ht : Kin W.fork p t t') (isGlobal : Bool) : ∀ e,
    W.Clear e.script.specs →
    Twin W p (initialValue t isGlobal e) (initialValue t' isGlobal e) (Agree Any)
  | ⟨kind, span, ty⟩, h => by
    rw [initialValue, initialValue]
    rw [Expr.script] at h
    have hkind (q : Pair) := twin_exprKind q span ty kind h
    refine .get_bind fun s s' hlinked hle => ?_
    have hplain (q : Pair) (hq : p ≤ q) : Twin W q
        (do
          let (e, v) ← exprKind span ty kind
          return (e, ← outcome (do
            let v ← decay (← v) span
            rule (checkAssignable · t v e)
            checkConstantInit isGlobal e)))
        (do
          let (e, v) ← exprKind span ty kind
          return (e, ← outcome (do
            let v ← decay (← v) span
            rule (checkAssignable · t' v e)
            checkConstantInit isGlobal e))) (Agree Any) := by
      refine (hkind q).bind (fun q₁ hle₁ _ e v e' v' he => ?_)
        fun _ _ _ _ => .still (fun _ => ⟨_, rfl⟩) fun _ => ⟨_, rfl⟩
      refine Twin.finish (Q := fun _ _ _ => True)
        (.given ((TwinCheck.decay he.type span).bind fun q₂ hle₂ _ u u' hu => ?_))
        fun _ _ _ _ _ _ _ => trivial
      exact (TwinCheck.allows fun q₃ hle₃ hA => checkAssignable_eq hA
        (ht.mono (hq.trans (hle₁.trans (hle₂.trans hle₃)))) (hu.mono hle₃) he.alike).bind
        fun _ _ _ _ _ _ => twin_checkConstantInit isGlobal he.alike
    cases ht.mono hle with
    | @array _ _ u u' n k k' hu =>
      rw [show s.registry.ty t = _ from k.2, show s'.registry.ty t' = _ from k'.2]
      by_cases hstring : ∃ text, kind = .string text
      · obtain ⟨text, rfl⟩ := hstring
        refine Twin.check (twin_checkStringInit hu n text span) (fun q _ _ _ _ _ => ?_)
          fun _ _ => .still (fun _ => ⟨_, rfl⟩) fun _ => ⟨_, rfl⟩
        exact Twin.bind (hkind q)
          (fun _ _ _ _ _ _ _ _ => .pure fun _ _ _ => .ok trivial)
          fun _ _ _ e => .pure fun _ _ _ => .error e
      · cases kind with
        | string text => exact absurd ⟨text, rfl⟩ hstring
        | _ => exact .still (fun _ => ⟨_, rfl⟩) fun _ => ⟨_, rfl⟩
    | void k k' | int k k' | pointer k k' | struct k k' =>
      rw [show s.registry.ty t = _ from k.2, show s'.registry.ty t' = _ from k'.2]
      exact hplain _ hle

theorem twin_elementInits (p : Pair) {t t' : TypeId} (ht : Kin W.fork p t t') (isGlobal : Bool) : ∀ is,
    W.Clear (scriptOfInitializers is).specs →
    Twin W p (elementInits t isGlobal is) (elementInits t' isGlobal is) (Agree Any)
  | [], _ => by
    rw [elementInits, elementInits]
    exact .pure fun _ _ _ => .ok trivial
  | i :: is, h => by
    rw [elementInits, elementInits]
    rw [scriptOfInitializers, Script.specs_append] at h
    obtain ⟨hi, his⟩ := clear_append.mp h
    refine (twin_initializer p ht isGlobal i hi).bind (fun q hle _ i _ i' _ _ => ?_)
      fun _ _ _ _ => .still (fun _ => ⟨_, rfl⟩) fun _ => ⟨_, rfl⟩
    exact Twin.bind (twin_elementInits q (ht.mono hle) isGlobal is his)
      (fun _ _ _ _ _ _ _ _ => .pure fun _ _ _ => .ok trivial) fun _ _ _ e => .pure fun _ _ _ => .error e

theorem twin_memberInits (p : Pair) {ts ts' : List TypeId} (hts : List.Forall₂ (Kin W.fork p) ts ts')
    (isGlobal : Bool) : ∀ is, W.Clear (scriptOfInitializers is).specs →
    Twin W p (memberInits ts isGlobal is) (memberInits ts' isGlobal is) (Agree Any)
  | [], _ => by
    rw [memberInits, memberInits]
    exact .pure fun _ _ _ => .ok trivial
  | i :: is, h => by
    rw [scriptOfInitializers, Script.specs_append] at h
    obtain ⟨hi, his⟩ := clear_append.mp h
    cases hts with
    | nil =>
      rw [memberInits]
      exact .pure fun _ _ _ => .ok trivial
    | cons ht hts =>
      rw [memberInits, memberInits]
      refine (twin_initializer p ht isGlobal i hi).bind (fun q hle _ i _ i' _ _ => ?_)
        fun _ _ _ _ => .still (fun _ => ⟨_, rfl⟩) fun _ => ⟨_, rfl⟩
      exact Twin.bind (twin_memberInits q (hts.imp fun _ _ hu => hu.mono hle) isGlobal is his)
        (fun _ _ _ _ _ _ _ _ => .pure fun _ _ _ => .ok trivial) fun _ _ _ e => .pure fun _ _ _ => .error e

theorem twin_scalarInit (p : Pair) {t t' : TypeId} (ht : Kin W.fork p t t') (isGlobal : Bool)
    (span : Span) : ∀ is, W.Clear (scriptOfInitializers is).specs →
    Twin W p (scalarInit t isGlobal span is) (scalarInit t' isGlobal span is) (Agree Any)
  | [.expr e], h => by
    rw [scalarInit, scalarInit]
    rw [scriptOfInitializers, scriptOfInitializers, Initializer.script, Script.append_done] at h
    exact (twin_initialValue p ht isGlobal e h).bind
      (fun _ _ _ _ _ _ _ _ => .pure fun _ _ _ => .ok trivial) fun _ _ _ e => .pure fun _ _ _ => .error e
  | [], _ => by
    rw [scalarInit, scalarInit]
    · exact .still (fun _ => ⟨_, rfl⟩) fun _ => ⟨_, rfl⟩
    all_goals nofun
  | [.list items span'], _ => by
    rw [scalarInit, scalarInit]
    · exact .still (fun _ => ⟨_, rfl⟩) fun _ => ⟨_, rfl⟩
    all_goals nofun
  | i :: j :: is, _ => by
    rw [scalarInit, scalarInit]
    · exact .still (fun _ => ⟨_, rfl⟩) fun _ => ⟨_, rfl⟩
    all_goals nofun

end

end Typing
end MiniC
