import MiniC.Proofs.Typing.JudgedUnits
/-!
What an accepted run consists of. A run has passed if it succeeds and no failure is recorded at its
end; then its parts have passed too, each from the state that the parts before it leave. Main
statements: the parts of each form of expression, statement and declaration.
-/
namespace MiniC.Typing

open Syntax Check
open Registry (Grows)

/-- A run that succeeds, without any failure on record. -/
structure Passed {τ β : Type} (act : Analysis (τ × Verdict β)) (s : State) (t : τ) (b : β)
    (s' : State) : Prop where
  run : act s = ((t, .ok b), s')
  errors : s'.errors = #[]

/-- Failures that are on record stay there. -/
def Keeps {α : Type} (act : Analysis α) : Prop := ∀ s, (act s).2.errors = #[] → s.errors = #[]

namespace Keeps

variable {α β τ : Type}

theorem pure (a : α) : Keeps (Pure.pure a : Analysis α) := fun _ h => h

theorem bind {x : Analysis α} {k : α → Analysis β} (hx : Keeps x) (hk : ∀ a, Keeps (k a)) :
    Keeps (x >>= k) := fun s h => hx s (hk (x s).1 (x s).2 h)

theorem outcome {c : Check α} (h : Quiet c) : Keeps (outcome c) := fun s hs => by
  rw [← (h s).errors]
  exact hs

theorem andThen {earlier : Verdict α} {tree : τ} {next : Analysis (τ × Verdict β)}
    (h : Keeps next) : Keeps (andThen earlier tree next) := by
  cases earlier with
  | ok a => exact h
  | error e => exact .pure _

theorem typed {kind : ExprKind} {span : Span} {before : Option TypeId} {c : Check TypeId}
    (h : Quiet c) : Keeps (typed kind span before c) :=
  (Keeps.outcome h).bind fun v => by cases v <;> exact .pure _

theorem memberExpr {kind : Option MemberRef → ExprKind} {span : Span} {before : Option TypeId}
    {old : Option MemberRef} {c : Check MemberRef} (h : Quiet c) :
    Keeps (memberExpr kind span before old c) :=
  (Keeps.outcome h).bind fun v => by cases v <;> exact .pure _

end Keeps

namespace Passed

variable {α β γ τ σ : Type} {s s' : State} {u : σ} {c : γ}

/-- What comes first has succeeded, and what follows has passed. -/
theorem follow {x : Analysis (τ × Verdict β)} {k : τ × Verdict β → Analysis (σ × Verdict γ)}
    (h : Passed (x >>= k) s u c s') (hf : ∀ t e, Fails (k (t, .error e))) :
    ∃ t b s₁, x s = ((t, .ok b), s₁) ∧ Passed (k (t, .ok b)) s₁ u c s' := by
  obtain ⟨hrun, herrors⟩ := h
  obtain ⟨⟨⟨t, v⟩, s₁⟩, hx⟩ : ∃ y, x s = y := ⟨_, rfl⟩
  rw [run_bind hx] at hrun
  cases v with
  | error e =>
    obtain ⟨e', he⟩ := (hf t e).error s₁ (by rw [hrun]; exact herrors)
    rw [hrun] at he
    cases he
  | ok b => exact ⟨t, b, s₁, hx, hrun, herrors⟩

/-- If failures stay on record, what comes first has passed too. -/
theorem split {x : Analysis (τ × Verdict β)} {k : τ × Verdict β → Analysis (σ × Verdict γ)}
    (h : Passed (x >>= k) s u c s') (hk : ∀ t b, Keeps (k (t, .ok b)))
    (hf : ∀ t e, Fails (k (t, .error e))) :
    ∃ t b s₁, Passed x s t b s₁ ∧ Passed (k (t, .ok b)) s₁ u c s' := by
  obtain ⟨t, b, s₁, hx, h⟩ := h.follow hf
  exact ⟨t, b, s₁, ⟨hx, hk t b s₁ (by rw [h.run]; exact h.errors)⟩, h⟩

/-- A check on the way has succeeded. -/
theorem check {x : Check α} {k : Verdict α → Analysis (σ × Verdict γ)}
    (h : Passed (outcome x >>= k) s u c s')
    (hf : ∀ e, Fails (k (.error e))) :
    ∃ a s₁, outcome x s = (.ok a, s₁) ∧ Passed (k (.ok a)) s₁ u c s' := by
  obtain ⟨hrun, herrors⟩ := h
  obtain ⟨⟨v, s₁⟩, hx⟩ : ∃ y, outcome x s = y := ⟨_, rfl⟩
  rw [run_bind hx] at hrun
  cases v with
  | error e =>
    obtain ⟨e', he⟩ := (hf e).error s₁ (by rw [hrun]; exact herrors)
    rw [hrun] at he
    cases he
  | ok a => exact ⟨a, s₁, hx, hrun, herrors⟩

theorem get {k : State → Analysis (σ × Verdict γ)} (h : Passed (get >>= k) s u c s') :
    Passed (k s) s u c s' := ⟨h.run, h.errors⟩

theorem typed {kind : ExprKind} {span : Span} {before : Option TypeId} {x : Check TypeId}
    {e : Expr} {t : TypeId} (h : Passed (typed kind span before x) s e t s') :
    e = ⟨kind, span, some t⟩ := by
  obtain ⟨a, s₁, -, hrun, -⟩ := h.check fun e => .still e fun _ => ⟨_, rfl⟩
  cases hrun
  rfl

theorem memberExpr {kind : Option MemberRef → ExprKind} {span : Span} {before : Option TypeId}
    {old : Option MemberRef} {x : Check MemberRef} {e : Expr} {t : TypeId}
    (h : Passed (memberExpr kind span before old x) s e t s') :
    ∃ m, e = ⟨kind (some m), span, some t⟩ := by
  obtain ⟨a, s₁, -, hrun, -⟩ := h.check fun e => .still e fun _ => ⟨_, rfl⟩
  cases hrun
  exact ⟨a, rfl⟩

theorem folded {kind : ExprKind} {span : Span} {before : Option TypeId} {x : Check Nat} {e : Expr}
    {t : TypeId} (h : Passed (folded kind span before x) s e t s') :
    ∃ n, e = ⟨.integer n, span, some t⟩ := by
  obtain ⟨a, s₁, -, h⟩ := h.check fun e => .still e fun _ => ⟨_, rfl⟩
  have hrun := h.get.run
  cases hrun
  exact ⟨_, rfl⟩

theorem pure {t : τ} {b : β} {u : τ} {c : β}
    (h : Passed (Pure.pure (t, .ok b) : Analysis (τ × Verdict β)) s u c s') :
    u = t ∧ c = b ∧ s' = s := by
  obtain ⟨hrun, -⟩ := h
  cases hrun
  exact ⟨rfl, rfl, rfl⟩

end Passed

/-! Expressions. -/

section Expressions

variable {s s' : State} {span : Span} {ty : Option TypeId} {e : Expr} {t : TypeId}

theorem Passed.value {e₀ : Expr} (h : Passed (value e₀) s e t s') :
    ∃ u s₁, Passed (expr e₀) s e u s₁ := by
  obtain ⟨kind, span, ty⟩ := e₀
  rw [Typing.value] at h
  obtain ⟨e₁, u, s₁, h₁, h⟩ := h.split
    (fun _ _ => .bind (.outcome (.bind (.lift _) fun _ => .decay _ _)) fun _ => .pure _)
    fun _ e => .still e fun _ => ⟨_, rfl⟩
  obtain ⟨_, _, -, h⟩ := h.check fun e => .still e fun _ => ⟨_, rfl⟩
  obtain ⟨rfl, -, -⟩ := h.pure
  exact ⟨u, s₁, by rwa [expr]⟩

theorem Passed.condition {e₀ : Expr} {u : Unit} (h : Passed (condition e₀) s e u s') :
    ∃ u s₁, Passed (expr e₀) s e u s₁ := by
  obtain ⟨kind, span, ty⟩ := e₀
  rw [Typing.condition] at h
  obtain ⟨e₁, u, s₁, h₁, h⟩ := h.split
    (fun _ _ => .bind (.outcome (.bind (.lift _) fun _ => (Quiet.decay _ _).bind fun _ => .rule _))
      fun _ => .pure _) fun _ e => .still e fun _ => ⟨_, rfl⟩
  obtain ⟨_, _, -, h⟩ := h.check fun e => .still e fun _ => ⟨_, rfl⟩
  obtain ⟨rfl, -, -⟩ := h.pure
  exact ⟨u, s₁, by rwa [expr]⟩

theorem Passed.binary {op : BinaryOp} {left right : Expr}
    (h : Passed (exprKind span ty (.binary op left right)) s e t s') :
    ∃ l lt s₁ r rt s₂, Passed (Typing.value left) s l lt s₁ ∧
      Passed (Typing.value right) s₁ r rt s₂ ∧ e = ⟨.binary op l r, span, some t⟩ := by
  rw [exprKind] at h
  obtain ⟨l, lt, s₁, hl, h⟩ := h.split
    (fun _ _ => .bind (analyzes_value [] right).errors fun _ => .typed
      (.bind (.lift _) fun _ => .bind (.lift _) fun _ => .rule _)) fun _ e => .still e fun _ => ⟨_, rfl⟩
  obtain ⟨r, rt, s₂, hr, h⟩ := h.split
    (fun _ _ => .typed (.bind (.lift _) fun _ => .bind (.lift _) fun _ => .rule _))
    fun _ e => .still e fun _ => ⟨_, rfl⟩
  exact ⟨l, lt, s₁, r, rt, s₂, hl, hr, h.typed⟩

theorem Passed.unary {op : UnaryOp} {operand : Expr}
    (h : Passed (exprKind span ty (.unary op operand)) s e t s') :
    ∃ o ot s₁, Passed (Typing.value operand) s o ot s₁ ∧ e = ⟨.unary op o, span, some t⟩ := by
  rw [exprKind] at h
  obtain ⟨o, ot, s₁, ho, h⟩ := h.split (fun _ _ => .typed (.bind (.lift _) fun _ => .rule _))
    fun _ e => .still e fun _ => ⟨_, rfl⟩
  exact ⟨o, ot, s₁, ho, h.typed⟩

theorem Passed.assign {op : Option BinaryOp} {target source : Expr}
    (h : Passed (exprKind span ty (.assign op target source)) s e t s') :
    ∃ g gt s₁ u s₂ v vt s₃, Passed (expr target) s g gt s₁ ∧
      outcome (checkTarget g gt) s₁ = (.ok u, s₂) ∧ Passed (Typing.value source) s₂ v vt s₃ ∧
      e = ⟨.assign op g v, span, some t⟩ := by
  rw [exprKind] at h
  have hlast (checked : Verdict Unit) (gt : Verdict TypeId) (v : Expr) (vt : Verdict TypeId) :
      Quiet (do
        checked
        checkAssignment op (← gt) (← vt) v span) :=
    .bind (.lift _) fun _ => .bind (.lift _) fun _ => .bind (.lift _) fun _ =>
      quiet_checkAssignment _ _ _ _ _
  obtain ⟨g, gt, s₁, hg, h⟩ := h.split
    (fun _ _ => .bind (.outcome (.bind (.lift _) fun _ => quiet_checkTarget _ _)) fun _ =>
      .bind (.andThen (analyzes_value [] source).errors) fun _ => .typed (hlast _ _ _ _))
    fun _ e => .still e fun _ => ⟨_, rfl⟩
  obtain ⟨u, s₂, hu, h⟩ := h.check fun e => .still e fun _ => ⟨_, rfl⟩
  obtain ⟨v, vt, s₃, hv, h⟩ := h.split (fun _ _ => .typed (hlast _ _ _ _))
    fun _ e => .still e fun _ => ⟨_, rfl⟩
  exact ⟨g, gt, s₁, u, s₂, v, vt, s₃, hg, hu, hv, h.typed⟩

theorem Passed.conditional {cond yes no : Expr}
    (h : Passed (exprKind span ty (.conditional cond yes no)) s e t s') :
    ∃ c u s₁ y yt s₂ n nt s₃, Passed (Typing.condition cond) s c u s₁ ∧
      Passed (Typing.value yes) s₁ y yt s₂ ∧ Passed (Typing.value no) s₂ n nt s₃ ∧
      e = ⟨.conditional c y n, span, some t⟩ := by
  rw [exprKind] at h
  have hlast (c : Verdict Unit) (yt nt : Verdict TypeId) (y n : Expr) : Quiet (do
      c
      let yt ← yt
      let nt ← nt
      rule (conditionalType · yt nt y n span)) :=
    .bind (.lift _) fun _ => .bind (.lift _) fun _ => .bind (.lift _) fun _ => .rule _
  obtain ⟨c, u, s₁, hc, h⟩ := h.split
    (fun _ _ => .bind (analyzes_value [] yes).errors fun _ =>
      .bind (.andThen (analyzes_value [] no).errors) fun _ => .typed (hlast _ _ _ _ _))
    fun _ e => .still e fun _ => ⟨_, rfl⟩
  obtain ⟨y, yt, s₂, hy, h⟩ := h.split
    (fun _ _ => .bind (analyzes_value [] no).errors fun _ => .typed (hlast _ _ _ _ _))
    fun _ e => .still e fun _ => ⟨_, rfl⟩
  obtain ⟨n, nt, s₃, hn, h⟩ := h.split (fun _ _ => .typed (hlast _ _ _ _ _))
    fun _ e => .still e fun _ => ⟨_, rfl⟩
  exact ⟨c, u, s₁, y, yt, s₂, n, nt, s₃, hc, hy, hn, h.typed⟩

theorem outcome_bind_eq_ok {α β : Type} {c : Check α} {k : α → Check β} {b : β}
    (h : outcome (c >>= k) s = (.ok b, s')) :
    ∃ a s₁, outcome c s = (.ok a, s₁) ∧ outcome (k a) s₁ = (.ok b, s') := by
  rw [outcome_bind] at h
  cases hc : outcome c s with
  | mk v s₁ =>
    rw [hc] at h
    cases v with
    | ok a => exact ⟨a, s₁, rfl, h⟩
    | error e => cases h

theorem Passed.call {callee : Expr} {args : List Expr}
    (h : Passed (exprKind span ty (.call callee args)) s e t s') :
    ∃ ret sig s₁ u s₂ es w s₃, outcome (calledFunction callee) s = (.ok (ret, sig), s₁) ∧
      outcome (checkArgumentCount sig args.length span) s₁ = (.ok u, s₂) ∧
      Passed (arguments sig.params args) s₂ es w s₃ ∧ e = ⟨.call callee es, span, some t⟩ := by
  rw [exprKind] at h
  obtain ⟨⟨ret, sig⟩, s₂, hf, h⟩ := h.check fun e => .still e fun _ => ⟨_, rfl⟩
  obtain ⟨⟨ret', sig'⟩, s₁, hcalled, hf⟩ := outcome_bind_eq_ok hf
  obtain ⟨u, s₃, hcount, hf⟩ := outcome_bind_eq_ok hf
  cases hf
  obtain ⟨es, w, s₄, hes, h⟩ := h.split
    (fun _ _ => .typed (.bind (.lift _) fun _ => .pure _)) fun _ e => .still e fun _ => ⟨_, rfl⟩
  exact ⟨_, _, s₁, u, _, es, w, s₄, hcalled, hcount, hes, h.typed⟩

theorem Passed.index {array subscript : Expr}
    (h : Passed (exprKind span ty (.index array subscript)) s e t s') :
    ∃ a at' s₁ i it s₂, Passed (expr array) s a at' s₁ ∧ Passed (Typing.value subscript) s₁ i it s₂ ∧
      e = ⟨.index a i, span, some t⟩ := by
  rw [exprKind] at h
  obtain ⟨a, u, s₁, ha, h⟩ := h.split
    (fun _ _ => .bind (analyzes_value [] subscript).errors fun _ => .typed
      (.bind (.lift _) fun _ => .bind (.lift _) fun _ => quiet_checkIndex _ _ _ _))
    fun _ e => .still e fun _ => ⟨_, rfl⟩
  obtain ⟨i, it, s₂, hi, h⟩ := h.split
    (fun _ _ => .typed (.bind (.lift _) fun _ => .bind (.lift _) fun _ => quiet_checkIndex _ _ _ _))
    fun _ e => .still e fun _ => ⟨_, rfl⟩
  exact ⟨a, u, s₁, i, it, s₂, ha, hi, h.typed⟩

theorem Passed.member {object : Expr} {field : String} {old : Option MemberRef}
    (h : Passed (exprKind span ty (.member object field old)) s e t s') :
    ∃ o ot s₁ m, Passed (expr object) s o ot s₁ ∧ e = ⟨.member o field (some m), span, some t⟩ := by
  rw [exprKind] at h
  obtain ⟨o, ot, s₁, ho, h⟩ := h.split (fun _ _ => .memberExpr (.bind (.lift _) fun _ => .rule _))
    fun _ e => .still e fun _ => ⟨_, rfl⟩
  obtain ⟨m, hm⟩ := h.memberExpr
  exact ⟨o, ot, s₁, m, ho, hm⟩

theorem Passed.pointerMember {pointer : Expr} {field : String} {old : Option MemberRef}
    (h : Passed (exprKind span ty (.pointerMember pointer field old)) s e t s') :
    ∃ o ot s₁ m, Passed (Typing.value pointer) s o ot s₁ ∧
      e = ⟨.pointerMember o field (some m), span, some t⟩ := by
  rw [exprKind] at h
  obtain ⟨o, ot, s₁, ho, h⟩ := h.split (fun _ _ => .memberExpr (.bind (.lift _) fun _ => .rule _))
    fun _ e => .still e fun _ => ⟨_, rfl⟩
  obtain ⟨m, hm⟩ := h.memberExpr
  exact ⟨o, ot, s₁, m, ho, hm⟩

theorem Passed.cast {written : TypeExpr} {operand : Expr}
    (h : Passed (exprKind span ty (.cast written operand)) s e t s') :
    ∃ w s₁ o ot s₂, outcome (resolve written) s = (.ok w, s₁) ∧
      Passed (Typing.value operand) s₁ o ot s₂ ∧ e = ⟨.cast written o, span, some t⟩ := by
  rw [exprKind] at h
  obtain ⟨w, s₁, hw, h⟩ := h.check fun e => .still e fun _ => ⟨_, rfl⟩
  obtain ⟨o, ot, s₂, ho, h⟩ := h.split
    (fun _ _ => .typed (.bind (.lift _) fun _ => .bind (.lift _) fun _ => .rule _))
    fun _ e => .still e fun _ => ⟨_, rfl⟩
  exact ⟨w, s₁, o, ot, s₂, hw, ho, h.typed⟩

/-- The operand of a size query is analyzed, but a number takes its place. -/
theorem Passed.query {q : SizeQuery} {operand : Expr}
    (h : Passed (exprKind span ty (.query q operand)) s e t s') :
    ∃ n, e = ⟨.integer n, span, some t⟩ := by
  rw [exprKind] at h
  obtain ⟨o, ot, s₁, -, h⟩ := h.follow fun _ e => .still e fun _ => ⟨_, rfl⟩
  exact h.folded

theorem Passed.typeQuery {q : SizeQuery} {written : TypeExpr}
    (h : Passed (exprKind span ty (.typeQuery q written)) s e t s') :
    ∃ n, e = ⟨.integer n, span, some t⟩ := by
  rw [exprKind] at h
  exact h.folded

theorem Passed.addressOf {operand : Expr}
    (h : Passed (exprKind span ty (.addressOf operand)) s e t s') :
    ∃ o ot s₁, Passed (expr operand) s o ot s₁ ∧ e = ⟨.addressOf o, span, some t⟩ := by
  rw [exprKind] at h
  obtain ⟨o, ot, s₁, ho, h⟩ := h.split
    (fun _ _ => .typed (.bind (.lift _) fun _ => quiet_addressType _ _ _))
    fun _ e => .still e fun _ => ⟨_, rfl⟩
  exact ⟨o, ot, s₁, ho, h.typed⟩

theorem Passed.deref {operand : Expr} (h : Passed (exprKind span ty (.deref operand)) s e t s') :
    ∃ o ot s₁, Passed (Typing.value operand) s o ot s₁ ∧ e = ⟨.deref o, span, some t⟩ := by
  rw [exprKind] at h
  obtain ⟨o, ot, s₁, ho, h⟩ := h.split (fun _ _ => .typed (.bind (.lift _) fun _ => .rule _))
    fun _ e => .still e fun _ => ⟨_, rfl⟩
  exact ⟨o, ot, s₁, ho, h.typed⟩

theorem Passed.step {operand : Expr} {decrement yieldsOld : Bool}
    (h : Passed (exprKind span ty (.step operand decrement yieldsOld)) s e t s') :
    ∃ o ot s₁, Passed (expr operand) s o ot s₁ ∧
      e = ⟨.step o decrement yieldsOld, span, some t⟩ := by
  rw [exprKind] at h
  obtain ⟨o, ot, s₁, ho, h⟩ := h.split
    (fun _ _ => .typed (.bind (.lift _) fun _ => quiet_checkStepped _ _ _))
    fun _ e => .still e fun _ => ⟨_, rfl⟩
  exact ⟨o, ot, s₁, ho, h.typed⟩

theorem Passed.comma {es : List Expr} (h : Passed (exprKind span ty (.comma es)) s e t s') :
    ∃ is last s₁, Passed (values Registry.void es) s is last s₁ ∧
      e = ⟨.comma is, span, some t⟩ := by
  rw [exprKind] at h
  obtain ⟨is, last, s₁, his, h⟩ := h.split (fun _ _ => .typed (.lift _))
    fun _ e => .still e fun _ => ⟨_, rfl⟩
  exact ⟨is, last, s₁, his, h.typed⟩

/-- What goes on in a scope. -/
theorem Passed.inScope {τ β : Type} {act : Analysis (τ × Verdict β)} {u : τ} {b : β}
    (h : Passed (inScope act) s u b s') :
    ∃ s₁, Passed act { s with scope := s.scope.push } u b s₁ ∧
      s' = { s₁ with scope := s₁.scope.pop } := by
  obtain ⟨hrun, herrors⟩ := h
  obtain ⟨⟨⟨w, v⟩, s₁⟩, hact⟩ : ∃ y, act { s with scope := s.scope.push } = y := ⟨_, rfl⟩
  replace hrun : ((act { s with scope := s.scope.push }).1,
    { (act { s with scope := s.scope.push }).2 with
      scope := (act { s with scope := s.scope.push }).2.scope.pop }) = ((u, .ok b), s') := hrun
  rw [hact] at hrun
  cases hrun
  exact ⟨s₁, ⟨hact, herrors⟩, rfl⟩

theorem Passed.items {recover : Bool} {b b' : Block} {u : Unit}
    (h : Passed (Typing.block recover b) s b' u s') :
    Passed (blockItems recover b.items) s b'.items u s' := by
  obtain ⟨items, span⟩ := b
  rw [Typing.block] at h
  obtain ⟨is, w, s₁, his, h⟩ := h.split (fun _ _ => .pure _) fun _ e => .still e fun _ => ⟨_, rfl⟩
  obtain ⟨rfl, rfl, rfl⟩ := h.pure
  exact his

theorem Passed.block {b : Block} (h : Passed (exprKind span ty (.block b)) s e t s') :
    ∃ b' u s₁, Passed (blockItems false b.items) { s with scope := s.scope.push } b'.items u s₁ ∧
      e = ⟨.block b', span, some t⟩ := by
  rw [exprKind] at h
  obtain ⟨b', u, s₁, hb, h⟩ := h.split (fun _ _ => .typed (.lift _))
    fun _ e => .still e fun _ => ⟨_, rfl⟩
  obtain ⟨s₂, hb, -⟩ := hb.inScope
  obtain ⟨b'', w, s₃, hitems, hb⟩ := hb.split
    (fun _ _ => .bind (.outcome (.bind (.lift _) fun _ => quiet_blockType _ _)) fun _ => .pure _)
    fun _ e => .still e fun _ => ⟨_, rfl⟩
  obtain ⟨v, s₄, -, hb⟩ := hb.check fun e => .still e fun _ => ⟨_, rfl⟩
  obtain ⟨rfl, -, -⟩ := hb.pure
  exact ⟨_, w, s₃, hitems.items, h.typed⟩

theorem Passed.values {last : TypeId} {e₀ : Expr} {es is : List Expr}
    (h : Passed (values last (e₀ :: es)) s is t s') :
    ∃ i u s₁ is', Passed (Typing.value e₀) s i u s₁ ∧ Passed (Typing.values u es) s₁ is' t s' ∧
      is = i :: is' := by
  rw [Typing.values] at h
  obtain ⟨i, u, s₁, hi, h⟩ := h.split
    (fun _ t => .bind (analyzes_values [] t es).errors fun _ => .pure _)
    fun _ e => .still e fun _ => ⟨_, rfl⟩
  obtain ⟨is', w, s₂, his, h⟩ := h.split (fun _ _ => .pure _) fun _ e => .still e fun _ => ⟨_, rfl⟩
  obtain ⟨rfl, rfl, rfl⟩ := h.pure
  exact ⟨i, u, s₁, is', hi, his, rfl⟩

theorem Passed.arguments {params : List TypeId} {e₀ : Expr} {es is : List Expr} {u : Unit}
    (h : Passed (arguments params (e₀ :: es)) s is u s') :
    ∃ i it s₁ w s₂ is', Passed (Typing.value e₀) s i it s₁ ∧
      outcome (checkArgument params.head? it i) s₁ = (.ok w, s₂) ∧
      Passed (Typing.arguments params.tail es) s₂ is' u s' ∧ is = i :: is' := by
  rw [Typing.arguments] at h
  obtain ⟨i, it, s₁, hi, h⟩ := h.split
    (fun _ _ => .bind (.outcome (.bind (.lift _) fun _ => quiet_checkArgument _ _ _)) fun _ =>
      .bind (.andThen (analyzes_arguments [] params.tail es).errors) fun _ => .pure _)
    fun _ e => .still e fun _ => ⟨_, rfl⟩
  obtain ⟨w, s₂, hw, h⟩ := h.check fun e => .still e fun _ => ⟨_, rfl⟩
  obtain ⟨is', w', s₃, his, h⟩ := h.split (fun _ _ => .pure _) fun _ e => .still e fun _ => ⟨_, rfl⟩
  obtain ⟨rfl, rfl, rfl⟩ := h.pure
  exact ⟨i, it, s₁, w, s₂, is', hi, hw, his, rfl⟩

/-- Only a name is analyzed to a name, and it has the type of the object that it stands for. -/
theorem Passed.name {e₀ : Expr} {name : String} (h : Passed (expr e₀) s ⟨.name name, span, ty⟩ t s') :
    (∃ ty₀, e₀ = ⟨.name name, span, ty₀⟩) ∧ ty = some t ∧ ∃ sym, s.scope.lookup name = some sym ∧
      sym.IsObject ∧ sym.ty = t := by
  obtain ⟨kind, span₀, ty₀⟩ := e₀
  rw [expr] at h
  cases kind with
  | name name =>
    rw [exprKind] at h
    cases h.typed
    obtain ⟨a, s₁, ha, hrun, -⟩ := h.check fun e => .still e fun _ => ⟨_, rfl⟩
    cases hrun
    refine ⟨⟨ty₀, rfl⟩, rfl, ?_⟩
    rw [nameType, outcome_get_bind] at ha
    split at ha
    · cases ha
    · rename_i sym hobject hlookup
      cases ha
      have hobject : sym.IsObject := by
        obtain ⟨symName, kind, symTy, symSpan⟩ := sym
        cases kind with
        | function sig => exact absurd rfl (hobject symName sig symTy symSpan)
        | _ => trivial
      exact ⟨sym, hlookup, hobject, rfl⟩
    · cases ha
  | integer n =>
    rw [exprKind] at h
    cases h.typed
  | character b =>
    rw [exprKind] at h
    cases h.typed
  | string text =>
    rw [exprKind] at h
    cases h.typed
  | binary op left right =>
    obtain ⟨_, _, _, _, _, _, -, -, h⟩ := h.binary
    cases h
  | unary op operand =>
    obtain ⟨_, _, _, -, h⟩ := h.unary
    cases h
  | assign op target source =>
    obtain ⟨_, _, _, _, _, _, _, _, -, -, -, h⟩ := h.assign
    cases h
  | conditional cond yes no =>
    obtain ⟨_, _, _, _, _, _, _, _, _, -, -, -, h⟩ := h.conditional
    cases h
  | call callee args =>
    obtain ⟨_, _, _, _, _, _, _, _, -, -, -, h⟩ := h.call
    cases h
  | index array subscript =>
    obtain ⟨_, _, _, _, _, _, -, -, h⟩ := h.index
    cases h
  | member object field old =>
    obtain ⟨_, _, _, _, -, h⟩ := h.member
    cases h
  | pointerMember pointer field old =>
    obtain ⟨_, _, _, _, -, h⟩ := h.pointerMember
    cases h
  | cast written operand =>
    obtain ⟨_, _, _, _, _, -, -, h⟩ := h.cast
    cases h
  | query q operand =>
    obtain ⟨_, h⟩ := h.query
    cases h
  | typeQuery q written =>
    obtain ⟨_, h⟩ := h.typeQuery
    cases h
  | addressOf operand =>
    obtain ⟨_, _, _, -, h⟩ := h.addressOf
    cases h
  | deref operand =>
    obtain ⟨_, _, _, -, h⟩ := h.deref
    cases h
  | step operand decrement yieldsOld =>
    obtain ⟨_, _, _, -, h⟩ := h.step
    cases h
  | comma items =>
    obtain ⟨_, _, _, -, h⟩ := h.comma
    cases h
  | block b =>
    obtain ⟨_, _, _, -, h⟩ := h.block
    cases h

end Expressions

/-! Statements. -/

section Statements

variable {s s' : State} {span : Span} {u : Unit}

theorem Passed.moreItems {recover : Bool} {i : BlockItem} {is js : List BlockItem}
    (h : Passed (blockItems recover (i :: is)) s js u s') :
    ∃ j w s₁ js', Passed (blockItem i) s j w s₁ ∧ Passed (blockItems recover is) s₁ js' u s' ∧
      js = j :: js' := by
  rw [blockItems] at h
  have hkeeps : Keeps (blockItems recover is) := (analyzes_blockItems [] [] recover is).errors
  obtain ⟨j, w, s₁, hj, h⟩ := h.split (fun _ _ => .bind hkeeps fun _ => .pure _) fun j e => by
    cases recover with
    | true => exact .recorded e (hkeeps.bind fun _ => .pure _)
    | false => exact .still e fun _ => ⟨_, rfl⟩
  obtain ⟨js', w', s₂, hjs, h⟩ := h.split (fun _ _ => .pure _) fun _ e => .still e fun _ => ⟨_, rfl⟩
  obtain ⟨rfl, rfl, rfl⟩ := h.pure
  exact ⟨j, w, s₁, js', hj, hjs, rfl⟩

theorem Passed.statement {st : Stmt} {i : BlockItem}
    (h : Passed (blockItem (.statement st)) s i u s') :
    ∃ st', Passed (stmt st) s st' u s' ∧ i = .statement st' := by
  rw [blockItem] at h
  obtain ⟨st', w, s₁, hst, h⟩ := h.split (fun _ _ => .pure _) fun _ e => .still e fun _ => ⟨_, rfl⟩
  obtain ⟨rfl, rfl, rfl⟩ := h.pure
  exact ⟨st', hst, rfl⟩

theorem Passed.declaration {d : Declaration} {i : BlockItem}
    (h : Passed (blockItem (.declaration d)) s i u s') :
    ∃ d', Passed (declaration d) s d' u s' ∧ i = .declaration d' := by
  rw [blockItem] at h
  obtain ⟨d', w, s₁, hd, h⟩ := h.split (fun _ _ => .pure _) fun _ e => .still e fun _ => ⟨_, rfl⟩
  obtain ⟨rfl, rfl, rfl⟩ := h.pure
  exact ⟨d', hd, rfl⟩

theorem Passed.vars {vs : List VarDecl} {d : Declaration}
    (h : Passed (Typing.declaration ⟨.vars vs, span⟩) s d u s') :
    ∃ vs', Passed (varDecls vs) s vs' u s' ∧ d = ⟨.vars vs', span⟩ := by
  rw [Typing.declaration] at h
  obtain ⟨k, w, s₁, hk, h⟩ := h.split (fun _ _ => .pure _) fun _ e => .still e fun _ => ⟨_, rfl⟩
  rw [declKind] at hk
  obtain ⟨vs', w', s₂, hvs, hk⟩ := hk.split (fun _ _ => .pure _) fun _ e => .still e fun _ => ⟨_, rfl⟩
  obtain ⟨rfl, rfl, rfl⟩ := hk.pure
  obtain ⟨rfl, rfl, rfl⟩ := h.pure
  exact ⟨vs', hvs, rfl⟩

theorem Passed.struct {spec : StructSpec} {d : Declaration}
    (h : Passed (Typing.declaration ⟨.struct spec, span⟩) s d u s') :
    d = ⟨.struct spec, span⟩ ∧ ∃ w, outcome (checkStructDecl spec) s = (.ok w, s') := by
  rw [Typing.declaration] at h
  obtain ⟨k, w, s₁, hk, h⟩ := h.split (fun _ _ => .pure _) fun _ e => .still e fun _ => ⟨_, rfl⟩
  rw [declKind] at hk
  obtain ⟨v, s₂, hv, hk⟩ := hk.check fun e => .still e fun _ => ⟨_, rfl⟩
  obtain ⟨rfl, -, rfl⟩ := hk.pure
  obtain ⟨rfl, -, rfl⟩ := h.pure
  exact ⟨rfl, v, hv⟩

theorem Passed.kind {kind : StmtKind} {st : Stmt} (h : Passed (stmt ⟨kind, span⟩) s st u s') :
    ∃ kind', Passed (stmtKind span kind) s kind' u s' ∧ st = ⟨kind', span⟩ := by
  rw [stmt] at h
  obtain ⟨k, w, s₁, hk, h⟩ := h.split (fun _ _ => .pure _) fun _ e => .still e fun _ => ⟨_, rfl⟩
  obtain ⟨rfl, rfl, rfl⟩ := h.pure
  exact ⟨k, hk, rfl⟩

theorem Passed.exprStmt {e : Expr} {kind : StmtKind}
    (h : Passed (stmtKind span (.expr e)) s kind u s') :
    ∃ e' t, Passed (expr e) s e' t s' ∧ kind = .expr e' := by
  rw [stmtKind] at h
  obtain ⟨e', t, s₁, he, h⟩ := h.split (fun _ _ => .pure _) fun _ e => .still e fun _ => ⟨_, rfl⟩
  obtain ⟨rfl, -, rfl⟩ := h.pure
  exact ⟨e', t, he, rfl⟩

theorem Passed.blockStmt {b : Block} {kind : StmtKind}
    (h : Passed (stmtKind span (.block b)) s kind u s') :
    ∃ b' s₁, Passed (blockItems true b.items) { s with scope := s.scope.push } b'.items u s₁ ∧
      kind = .block b' := by
  rw [stmtKind] at h
  obtain ⟨b', w, s₁, hb, h⟩ := h.split (fun _ _ => .pure _) fun _ e => .still e fun _ => ⟨_, rfl⟩
  obtain ⟨rfl, rfl, -⟩ := h.pure
  obtain ⟨s₂, hb, -⟩ := hb.inScope
  exact ⟨b', s₂, hb.items, rfl⟩

theorem Passed.if_ {cond : Expr} {yes : Stmt} {no : Option Stmt} {kind : StmtKind}
    (h : Passed (stmtKind span (.if_ cond yes no)) s kind u s') :
    ∃ c w s₁ y x s₂ n z, Passed (Typing.condition cond) s c w s₁ ∧ Passed (stmt yes) s₁ y x s₂ ∧
      Passed (stmt? no) s₂ n z s' ∧ kind = .if_ c y n := by
  rw [stmtKind] at h
  obtain ⟨c, w, s₁, hc, h⟩ := h.split
    (fun _ _ => .bind (analyzes_stmt [] yes).errors fun _ =>
      .bind (.andThen (analyzes_stmt? [] no).errors) fun _ => .pure _)
    fun _ e => .still e fun _ => ⟨_, rfl⟩
  obtain ⟨y, x, s₂, hy, h⟩ := h.split
    (fun _ _ => .bind (analyzes_stmt? [] no).errors fun _ => .pure _)
    fun _ e => .still e fun _ => ⟨_, rfl⟩
  obtain ⟨n, z, s₃, hn, h⟩ := h.split (fun _ _ => .pure _) fun _ e => .still e fun _ => ⟨_, rfl⟩
  obtain ⟨rfl, -, rfl⟩ := h.pure
  exact ⟨c, w, s₁, y, x, s₂, n, z, hc, hy, hn, rfl⟩

theorem Passed.stmt? {st : Stmt} {o : Option Stmt} (h : Passed (stmt? (some st)) s o u s') :
    ∃ st', Passed (stmt st) s st' u s' ∧ o = some st' := by
  rw [Typing.stmt?] at h
  obtain ⟨st', w, s₁, hst, h⟩ := h.split (fun _ _ => .pure _) fun _ e => .still e fun _ => ⟨_, rfl⟩
  obtain ⟨rfl, rfl, rfl⟩ := h.pure
  exact ⟨st', hst, rfl⟩

theorem Passed.expr? {e : Expr} {o : Option Expr} (h : Passed (expr? (some e)) s o u s') :
    ∃ e' t, Passed (expr e) s e' t s' ∧ o = some e' := by
  rw [Typing.expr?] at h
  obtain ⟨e', t, s₁, he, h⟩ := h.split (fun _ _ => .pure _) fun _ e => .still e fun _ => ⟨_, rfl⟩
  obtain ⟨rfl, -, rfl⟩ := h.pure
  exact ⟨e', t, he, rfl⟩

theorem Passed.condition? {e : Expr} {o : Option Expr} (h : Passed (condition? (some e)) s o u s') :
    ∃ e' w, Passed (Typing.condition e) s e' w s' ∧ o = some e' := by
  rw [Typing.condition?] at h
  obtain ⟨e', w, s₁, he, h⟩ := h.split (fun _ _ => .pure _) fun _ e => .still e fun _ => ⟨_, rfl⟩
  obtain ⟨rfl, -, rfl⟩ := h.pure
  exact ⟨e', w, he, rfl⟩

theorem Passed.firstClause {e : Expr} {o : Option LoopInit}
    (h : Passed (loopInit? (some (.expr e))) s o u s') :
    ∃ e' t, Passed (expr e) s e' t s' ∧ o = some (.expr e') := by
  rw [loopInit?] at h
  obtain ⟨i, w, s₁, hi, h⟩ := h.split (fun _ _ => .pure _) fun _ e => .still e fun _ => ⟨_, rfl⟩
  obtain ⟨rfl, -, rfl⟩ := h.pure
  rw [loopInit] at hi
  obtain ⟨e', t, s₂, he, hi⟩ := hi.split (fun _ _ => .pure _) fun _ e => .still e fun _ => ⟨_, rfl⟩
  obtain ⟨rfl, -, rfl⟩ := hi.pure
  exact ⟨e', t, he, rfl⟩

theorem Passed.firstDeclaration {d : Declaration} {o : Option LoopInit}
    (h : Passed (loopInit? (some (.declaration d))) s o u s') :
    ∃ d' w, Passed (Typing.declaration d) s d' w s' ∧ o = some (.declaration d') := by
  rw [loopInit?] at h
  obtain ⟨i, w, s₁, hi, h⟩ := h.split (fun _ _ => .pure _) fun _ e => .still e fun _ => ⟨_, rfl⟩
  obtain ⟨rfl, -, rfl⟩ := h.pure
  rw [loopInit] at hi
  obtain ⟨d', w', s₂, hd, hi⟩ := hi.split (fun _ _ => .pure _) fun _ e => .still e fun _ => ⟨_, rfl⟩
  obtain ⟨rfl, -, rfl⟩ := hi.pure
  exact ⟨d', _, hd, rfl⟩

theorem Keeps.inLoop {act : Analysis α} (h : Keeps act) : Keeps (inLoop act) :=
  fun s hs => h { s with loopDepth := s.loopDepth + 1 } hs

theorem Passed.inLoop {τ β : Type} {act : Analysis (τ × Verdict β)} {t : τ} {b : β}
    (h : Passed (inLoop act) s t b s') :
    ∃ s₁, Passed act { s with loopDepth := s.loopDepth + 1 } t b s₁ ∧
      s' = { s₁ with loopDepth := s₁.loopDepth - 1 } := by
  obtain ⟨hrun, herrors⟩ := h
  obtain ⟨⟨⟨w, v⟩, s₁⟩, hact⟩ : ∃ y, act { s with loopDepth := s.loopDepth + 1 } = y := ⟨_, rfl⟩
  replace hrun : ((act { s with loopDepth := s.loopDepth + 1 }).1,
    { (act { s with loopDepth := s.loopDepth + 1 }).2 with
      loopDepth := (act { s with loopDepth := s.loopDepth + 1 }).2.loopDepth - 1 }) =
        ((t, .ok b), s') := hrun
  rw [hact] at hrun
  cases hrun
  exact ⟨s₁, ⟨hact, herrors⟩, rfl⟩

theorem Passed.loop {kind : LoopKind} {init : Option LoopInit} {cond update : Option Expr}
    {body : Stmt} {k : StmtKind}
    (h : Passed (stmtKind span (.loop kind init cond update body)) s k u s') :
    ∃ i w s₁ c x s₂ p y s₃ b z s₄,
      Passed (loopInit? init) { s with scope := s.scope.push } i w s₁ ∧
      Passed (Typing.condition? cond) s₁ c x s₂ ∧ Passed (Typing.expr? update) s₂ p y s₃ ∧
      Passed (stmt body) { s₃ with loopDepth := s₃.loopDepth + 1 } b z s₄ ∧
      k = .loop kind i c p b := by
  rw [stmtKind] at h
  obtain ⟨s₅, h, -⟩ := h.inScope
  have hbody : Keeps (Typing.inLoop (stmt body)) := .inLoop (analyzes_stmt [] body).errors
  obtain ⟨i, w, s₁, hi, h⟩ := h.split
    (fun _ _ => .bind (analyzes_condition? [] cond).errors fun _ =>
      .bind (.andThen (analyzes_expr? [] update).errors) fun _ => .bind (.andThen hbody) fun _ => .pure _)
    fun _ e => .still e fun _ => ⟨_, rfl⟩
  obtain ⟨c, x, s₂, hc, h⟩ := h.split
    (fun _ _ => .bind (analyzes_expr? [] update).errors fun _ => .bind (.andThen hbody) fun _ => .pure _)
    fun _ e => .still e fun _ => ⟨_, rfl⟩
  obtain ⟨p, y, s₃, hp, h⟩ := h.split (fun _ _ => .bind hbody fun _ => .pure _)
    fun _ e => .still e fun _ => ⟨_, rfl⟩
  obtain ⟨b, z, s₄, hb, h⟩ := h.split (fun _ _ => .pure _) fun _ e => .still e fun _ => ⟨_, rfl⟩
  obtain ⟨rfl, -, -⟩ := h.pure
  obtain ⟨s₆, hb, -⟩ := hb.inLoop
  exact ⟨i, w, s₁, c, x, s₂, p, y, s₃, b, z, s₆, hi, hc, hp, hb, rfl⟩

theorem Passed.returnNothing {kind : StmtKind}
    (h : Passed (stmtKind span (.return_ none)) s kind u s') : kind = .return_ none := by
  rw [stmtKind] at h
  replace h := h.get
  split at h
  · cases h.run
  · obtain ⟨o, w, s₁, ho, h⟩ := h.split (fun _ _ => .pure _) fun _ e => .still e fun _ => ⟨_, rfl⟩
    rw [returned?] at ho
    obtain rfl : none = o := congrArg (·.1.1) ho.run
    exact h.pure.1

theorem Passed.return_ {e : Expr} {kind : StmtKind}
    (h : Passed (stmtKind span (.return_ (some e))) s kind u s') :
    s.returns.isSome = true ∧ ∃ e' t s₁, Passed (Typing.value e) s e' t s₁ ∧ kind = .return_ (some e') := by
  rw [stmtKind] at h
  replace h := h.get
  split at h
  · cases h.run
  · rename_i hreturns
    obtain ⟨o, w, s₁, ho, h⟩ := h.split (fun _ _ => .pure _) fun _ e => .still e fun _ => ⟨_, rfl⟩
    obtain ⟨rfl, -, rfl⟩ := h.pure
    rw [returned?] at ho
    obtain ⟨e', t, s₂, he, ho⟩ := ho.split
      (fun _ _ => .bind (.outcome (quiet_checkReturn _ _)) fun _ => .pure _)
      fun _ e => .still e fun _ => ⟨_, rfl⟩
    obtain ⟨v, s₃, -, ho⟩ := ho.check fun e => .still e fun _ => ⟨_, rfl⟩
    obtain ⟨rfl, -, -⟩ := ho.pure
    exact ⟨Option.isSome_iff_ne_none.mpr (by simpa using hreturns), e', t, s₂, he, rfl⟩

end Statements

/-! Declarations and initializers. -/

section Declarations

variable {s s' : State} {span : Span} {u : Unit} {t : TypeId} {isGlobal : Bool}

theorem Passed.moreVars {v : VarDecl} {vs ws : List VarDecl}
    (h : Passed (varDecls (v :: vs)) s ws u s') :
    ∃ w x s₁ ws', Passed (varDecl v) s w x s₁ ∧ Passed (varDecls vs) s₁ ws' u s' ∧ ws = w :: ws' := by
  rw [varDecls] at h
  obtain ⟨w, x, s₁, hw, h⟩ := h.split
    (fun _ _ => .bind (analyzes_varDecls [] vs).errors fun _ => .pure _)
    fun _ e => .still e fun _ => ⟨_, rfl⟩
  obtain ⟨ws', y, s₂, hws, h⟩ := h.split (fun _ _ => .pure _) fun _ e => .still e fun _ => ⟨_, rfl⟩
  obtain ⟨rfl, rfl, rfl⟩ := h.pure
  exact ⟨w, x, s₁, ws', hw, hws, rfl⟩

theorem Passed.variable {v w : VarDecl} (h : Passed (varDecl v) s w u s') :
    ∃ t s₁ x s₂ i y, outcome (checkVariable v) s = (.ok t, s₁) ∧
      outcome (define ⟨v.name, .variable s₁.scope.isGlobal, t, v.span⟩) s₁ = (.ok x, s₂) ∧
      Passed (initializer? t s₁.scope.isGlobal v.init) s₂ i y s' ∧
      w = { v with init := i, resolved := some t } := by
  obtain ⟨name, ty, init, span, resolved⟩ := v
  rw [varDecl] at h
  obtain ⟨t, s₁, ht, h⟩ := h.check fun e => .still e fun _ => ⟨_, rfl⟩
  obtain ⟨x, s₂, hx, h⟩ := h.get.check fun e => .still e fun _ => ⟨_, rfl⟩
  obtain ⟨i, y, s₃, hi, h⟩ := h.split (fun _ _ => .pure _) fun _ e => .still e fun _ => ⟨_, rfl⟩
  obtain ⟨rfl, -, rfl⟩ := h.pure
  exact ⟨t, s₁, x, s₂, i, y, ht, hx, hi, rfl⟩

theorem Passed.initializer? {i : Initializer} {o : Option Initializer}
    (h : Passed (initializer? t isGlobal (some i)) s o u s') :
    ∃ i', Passed (initializer t isGlobal i) s i' u s' ∧ o = some i' := by
  rw [Typing.initializer?] at h
  obtain ⟨i', y, s₃, hi, h⟩ := h.split (fun _ _ => .pure _) fun _ e => .still e fun _ => ⟨_, rfl⟩
  obtain ⟨rfl, rfl, rfl⟩ := h.pure
  exact ⟨i', hi, rfl⟩

theorem outcome_checkStringInit {element : TypeId} {length : Nat} {text : String}
    (h : outcome (checkStringInit element length text span) s = (.ok u, s')) : s' = s := by
  unfold checkStringInit at h
  rw [outcome_registry_bind] at h
  by_cases hbyte : (s.registry.sizeOf element != 1 || !s.registry.isInteger element) = true
  · simp only [hbyte, if_true] at h
    cases h
  · by_cases hlong : length < text.utf8ByteSize
    · simp only [hbyte, hlong, if_true] at h
      cases h
    · simp only [hbyte, hlong, if_false] at h
      cases h
      rfl

/-- An initializer that is one expression is analyzed like any other. -/
theorem Passed.initialValue {e : Expr} {i : Initializer}
    (h : Passed (initializer t isGlobal (.expr e)) s i u s') :
    ∃ e' t' s₁, Passed (expr e) s e' t' s₁ ∧ i = .expr e' := by
  rw [initializer] at h
  obtain ⟨e', w, s₁, he, h⟩ := h.split (fun _ _ => .pure _) fun _ e => .still e fun _ => ⟨_, rfl⟩
  obtain ⟨rfl, -, rfl⟩ := h.pure
  obtain ⟨kind, span, ty⟩ := e
  rw [Typing.initialValue] at he
  replace he := he.get
  rw [expr]
  split at he
  · obtain ⟨x, s₂, hx, he⟩ := he.check fun e => .still e fun _ => ⟨_, rfl⟩
    obtain rfl := outcome_checkStringInit hx
    cases x
    obtain ⟨e'', t', s₃, he'', he⟩ := he.split (fun _ _ => .pure _)
      fun _ e => .still e fun _ => ⟨_, rfl⟩
    obtain ⟨rfl, -, rfl⟩ := he.pure
    exact ⟨_, t', _, he'', rfl⟩
  · cases he.run
  · obtain ⟨e'', t', s₃, he'', he⟩ := he.split
      (fun _ _ => .bind (.outcome (.bind (.lift _) fun _ => (Quiet.decay _ _).bind fun _ =>
        (Quiet.rule _).bind fun _ => quiet_checkConstantInit _ _)) fun _ => .pure _)
      fun _ e => .still e fun _ => ⟨_, rfl⟩
    obtain ⟨x, s₂, -, he⟩ := he.check fun e => .still e fun _ => ⟨_, rfl⟩
    obtain ⟨rfl, -, -⟩ := he.pure
    exact ⟨_, t', _, he'', rfl⟩

/-- A list initializes elements, members or one scalar. -/
theorem Passed.list {is : List Initializer} {i : Initializer}
    (h : Passed (initializer t isGlobal (.list is span)) s i u s') :
    ∃ is', i = .list is' span ∧
      ((∃ element length w s₁ x, listTarget s.registry t = .elements element length ∧
        outcome (checkExcess .excessInArray is length) s = (.ok w, s₁) ∧
        Passed (elementInits element isGlobal is) s₁ is' x s') ∨
      (∃ types w s₁ x, listTarget s.registry t = .members types ∧
        outcome (checkExcess .excessInStruct is types.length) s = (.ok w, s₁) ∧
        Passed (memberInits types isGlobal is) s₁ is' x s') ∨
      ∃ e e' x, listTarget s.registry t = .scalar ∧ is = [.expr e] ∧ is' = [.expr e'] ∧
        Passed (initializer t isGlobal (.expr e)) s (.expr e') x s') := by
  rw [initializer] at h
  replace h := h.get
  split at h
  · rename_i element length htarget
    obtain ⟨w, s₁, hw, h⟩ := h.check fun e => .still e fun _ => ⟨_, rfl⟩
    obtain ⟨is', x, s₂, his, h⟩ := h.split (fun _ _ => .pure _) fun _ e => .still e fun _ => ⟨_, rfl⟩
    obtain ⟨rfl, -, rfl⟩ := h.pure
    exact ⟨is', rfl, .inl ⟨element, length, w, s₁, x, htarget, hw, his⟩⟩
  · rename_i types htarget
    obtain ⟨w, s₁, hw, h⟩ := h.check fun e => .still e fun _ => ⟨_, rfl⟩
    obtain ⟨is', x, s₂, his, h⟩ := h.split (fun _ _ => .pure _) fun _ e => .still e fun _ => ⟨_, rfl⟩
    obtain ⟨rfl, -, rfl⟩ := h.pure
    exact ⟨is', rfl, .inr (.inl ⟨types, w, s₁, x, htarget, hw, his⟩)⟩
  · rename_i htarget
    obtain ⟨is', x, s₂, his, h⟩ := h.split (fun _ _ => .pure _) fun _ e => .still e fun _ => ⟨_, rfl⟩
    obtain ⟨rfl, -, rfl⟩ := h.pure
    refine ⟨is', rfl, .inr (.inr ?_)⟩
    rw [scalarInit.eq_def] at his
    split at his
    · rename_i e
      obtain ⟨e', y, s₃, he, his⟩ := his.split (fun _ _ => .pure _)
        fun _ e => .still e fun _ => ⟨_, rfl⟩
      obtain ⟨rfl, rfl, rfl⟩ := his.pure
      refine ⟨e, e', (), htarget, rfl, rfl, ?_⟩
      rw [initializer]
      exact ⟨(run_bind he.run _).trans rfl, he.errors⟩
    · cases his.run

theorem Passed.elements {element : TypeId} {i : Initializer} {is js : List Initializer}
    (h : Passed (elementInits element isGlobal (i :: is)) s js u s') :
    ∃ j w s₁ js', Passed (initializer element isGlobal i) s j w s₁ ∧
      Passed (elementInits element isGlobal is) s₁ js' u s' ∧ js = j :: js' := by
  rw [elementInits] at h
  obtain ⟨j, w, s₁, hj, h⟩ := h.split
    (fun _ _ => .bind (analyzes_elementInits [] element isGlobal is).errors fun _ => .pure _)
    fun _ e => .still e fun _ => ⟨_, rfl⟩
  obtain ⟨js', x, s₂, hjs, h⟩ := h.split (fun _ _ => .pure _) fun _ e => .still e fun _ => ⟨_, rfl⟩
  obtain ⟨rfl, rfl, rfl⟩ := h.pure
  exact ⟨j, w, s₁, js', hj, hjs, rfl⟩

theorem Passed.members {types : List TypeId} {i : Initializer} {is js : List Initializer}
    (h : Passed (memberInits (t :: types) isGlobal (i :: is)) s js u s')
    (hlength : is.length ≤ types.length) :
    ∃ j w s₁ js', Passed (initializer t isGlobal i) s j w s₁ ∧
      Passed (memberInits types isGlobal is) s₁ js' u s' ∧ js = j :: js' := by
  rw [memberInits] at h
  obtain ⟨j, w, s₁, hj, h⟩ := h.split
    (fun _ _ => .bind (analyzes_memberInits [] isGlobal is hlength).errors fun _ => .pure _)
    fun _ e => .still e fun _ => ⟨_, rfl⟩
  obtain ⟨js', x, s₂, hjs, h⟩ := h.split (fun _ _ => .pure _) fun _ e => .still e fun _ => ⟨_, rfl⟩
  obtain ⟨rfl, rfl, rfl⟩ := h.pure
  exact ⟨j, w, s₁, js', hj, hjs, rfl⟩

end Declarations

/-! Functions and whole units. -/

section Functions

variable {s s' : State} {u : Unit}

theorem topDecls_eq {d : TopDecl} {ds ds' : List TopDecl} (h : topDecls (d :: ds) s = (ds', s'))
    (herrors : s'.errors = #[]) :
    ∃ d' w s₁ ds'', Passed (topDecl d) s d' w s₁ ∧ topDecls ds s₁ = (ds'', s') ∧ ds' = d' :: ds'' := by
  obtain ⟨⟨⟨d', v⟩, s₁⟩, hd⟩ : ∃ y, topDecl d s = y := ⟨_, rfl⟩
  rw [topDecls, run_bind hd] at h
  cases v with
  | error e =>
    obtain ⟨⟨ds'', s₂⟩, hds⟩ : ∃ y, topDecls ds { s₁ with errors := s₁.errors.push e } = y := ⟨_, rfl⟩
    have hrecord : record e s₁ = ((), { s₁ with errors := s₁.errors.push e }) := rfl
    replace h := (run_bind hds _).symm.trans ((run_bind hrecord _).symm.trans h)
    cases h
    have hpush := (accepted_topDecls hds).1 herrors
    simp at hpush
  | ok w =>
    obtain ⟨⟨ds'', s₂⟩, hds⟩ : ∃ y, topDecls ds s₁ = y := ⟨_, rfl⟩
    replace h := (run_bind hds _).symm.trans h
    cases h
    exact ⟨d', w, s₁, ds'', ⟨hd, (accepted_topDecls hds).1 herrors⟩, hds, rfl⟩

theorem Passed.topDeclaration {d : Declaration} {d' : TopDecl}
    (h : Passed (topDecl (.declaration d)) s d' u s') :
    ∃ e, Passed (Typing.declaration d) s e u s' ∧ d' = .declaration e := by
  rw [topDecl] at h
  obtain ⟨e, w, s₁, he, h⟩ := h.split (fun _ _ => .pure _) fun _ e => .still e fun _ => ⟨_, rfl⟩
  obtain ⟨rfl, rfl, rfl⟩ := h.pure
  exact ⟨e, he, rfl⟩

theorem Passed.topFunction {f : FuncDecl} {d' : TopDecl}
    (h : Passed (topDecl (.function f)) s d' u s') :
    ∃ g, Passed (function f) s g u s' ∧ d' = .function g := by
  rw [topDecl] at h
  obtain ⟨g, w, s₁, hg, h⟩ := h.split (fun _ _ => .pure _) fun _ e => .still e fun _ => ⟨_, rfl⟩
  obtain ⟨rfl, rfl, rfl⟩ := h.pure
  exact ⟨g, hg, rfl⟩

theorem Passed.functionBody {ret : TypeId} {ps : List ParamDecl} {body b : Block}
    (h : Passed (functionBody ret ps body) s b u s') :
    ∃ s₁, Passed (do
        let defined ← outcome (defineParams ps)
        andThen defined body (Typing.block true body))
      { s with returns := some ret, scope := s.scope.push } b u s₁ := by
  obtain ⟨⟨⟨b', v⟩, s₁⟩, hrun⟩ : ∃ y, Typing.inScope (do
      let defined ← outcome (defineParams ps)
      andThen defined body (Typing.block true body)) { s with returns := some ret } = y := ⟨_, rfl⟩
  obtain ⟨hbody, herrors⟩ := h
  unfold Typing.functionBody at hbody
  have hreturns : modify (m := StateM State) ({ · with returns := some ret }) s =
      ((), { s with returns := some ret }) := rfl
  rw [run_bind hreturns, run_bind hrun] at hbody
  cases hbody
  obtain ⟨s₂, hact, -⟩ := Passed.inScope ⟨hrun, herrors⟩
  exact ⟨s₂, hact⟩

theorem Passed.prototype {f g : FuncDecl} (hbody : f.body = none)
    (h : Passed (function f) s g u s') : g.body = none := by
  obtain ⟨name, returns, qs, variadic, _, span, resolved⟩ := f
  obtain rfl : _ = none := hbody
  unfold Typing.function at h
  obtain ⟨ret, s₁, hret, h⟩ := h.check fun e => .still e fun _ => ⟨_, rfl⟩
  obtain ⟨ps, ts, s₂, hps, h⟩ := h.follow fun _ e => .still e fun _ => ⟨_, rfl⟩
  obtain ⟨w, s₃, hw, h⟩ := h.check fun e => .still e fun _ => ⟨_, rfl⟩
  cases w
  obtain ⟨rfl, -, -⟩ := h.pure
  rfl

/-- The parameters of a definition are in scope in its body. -/
theorem Passed.function {f g : FuncDecl} {body : Block} (hbody : f.body = some body)
    (h : Passed (function f) s g u s') :
    ∃ ret s₁ ps ts s₂ w s₃ x s₄ b y s₅, outcome (checkResult f.returns) s = (.ok ret, s₁) ∧
      params f.body.isSome f.params s₁ = ((ps, .ok ts), s₂) ∧
      outcome (declareFunction f.name ret ⟨ts, f.variadic, f.isDefinition, false⟩ f.span) s₂ =
        (.ok w, s₃) ∧
      outcome (defineParams ps) { s₃ with returns := some ret, scope := s₃.scope.push } =
        (.ok x, s₄) ∧
      Passed (blockItems true body.items) s₄ b.items y s₅ ∧
      g = { f with resolvedReturn := some ret, params := ps, body := some b } := by
  obtain ⟨name, returns, qs, variadic, _, span, resolved⟩ := f
  obtain rfl : _ = some body := hbody
  unfold Typing.function at h
  obtain ⟨ret, s₁, hret, h⟩ := h.check fun e => .still e fun _ => ⟨_, rfl⟩
  obtain ⟨ps, ts, s₂, hps, h⟩ := h.follow fun _ e => .still e fun _ => ⟨_, rfl⟩
  obtain ⟨w, s₃, hw, h⟩ := h.check fun e => .still e fun _ => ⟨_, rfl⟩
  cases w
  obtain ⟨b, y, s₄, hb, h⟩ := h.split (fun _ _ => .pure _) fun _ e => .still e fun _ => ⟨_, rfl⟩
  obtain ⟨rfl, rfl, rfl⟩ := h.pure
  obtain ⟨s₅, hb⟩ := hb.functionBody
  obtain ⟨x, s₆, hx, hb⟩ := hb.check fun e => .still e fun _ => ⟨_, rfl⟩
  exact ⟨ret, s₁, ps, ts, s₂, (), s₃, x, s₆, b, _, s₅, hret, hps, hw, hx, hb.items, rfl⟩

end Functions

end MiniC.Typing
