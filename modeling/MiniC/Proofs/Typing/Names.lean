import MiniC.Proofs.Syntax.Scoped
import MiniC.Proofs.Typing.Quiet
/-!
What analysis says of names. Main statement: a tree that is analyzed without any failure is scoped,
whatever tree it is a part of, and leaves in scope what it declares.
-/
namespace MiniC

/-- A variable or a parameter. -/
def Symbol.IsObject (s : Symbol) : Prop :=
  match s.kind with
  | .function _ => False
  | _ => True

theorem Scope.symbols_pop {s : Scope} {frame : List Symbol} {frames : List (List Symbol)}
    (h : s.symbols = frame :: frames) (hne : frames ≠ []) : s.pop.symbols = frames := by
  obtain ⟨inner, outer⟩ := s
  obtain ⟨-, rfl⟩ := List.cons.inj h
  cases outer with
  | nil => exact absurd rfl hne
  | cons f fs => rfl

/-- A call with so many arguments passes the check. -/
def Signature.Takes (sig : Signature) (n : Nat) : Prop :=
  sig.params.length ≤ n ∧ (sig.variadic = true ∨ n ≤ sig.params.length)

end MiniC

namespace MiniC.Typing

open Code (Names)
open Syntax
open Check

/-- The locals are those of `L`, and `G` are the symbols of the global frame. -/
def Stands (L : Locals) (G : List Symbol) (s : State) : Prop :=
  ∃ frames, s.scope.symbols = frames ++ [G] ∧ frames.map (·.map (·.name)) = L ∧
    ∀ frame ∈ frames, ∀ sym ∈ frame, sym.IsObject

/-- What a program may name covers the symbols of the global frame. -/
structure Covers (N : Names) (G : List Symbol) : Prop where
  objects : ∀ sym ∈ G, sym.IsObject → N.globals sym.name
  functions : ∀ sym ∈ G, ∀ sig, sym.kind = .function sig → ∀ n, sig.Takes n → N.fits sym.name n

/-- The global frame gains objects of the given names only. -/
structure Gains (new : List String) (G G' : List Symbol) : Prop where
  old : G ⊆ G'
  new : ∀ sym ∈ G', sym ∈ G ∨ sym.IsObject ∧ sym.name ∈ new

/-- An analysis that leads from the locals `L` to the locals `L'`. If it neither fails nor records a
failure, its tree has the property. -/
structure Analyzes {τ β : Type} (L L' : Locals) (new : List String)
    (act : Analysis (τ × Verdict β)) (P : Names → τ → Prop) : Prop where
  errors : ∀ s, (act s).2.errors = #[] → s.errors = #[]
  named : ∀ ⦃s t b s'⦄, act s = ((t, .ok b), s') → s'.errors = #[] → ∀ G, Stands L G s →
    ∃ G', Stands L' G' s' ∧ Gains new G G' ∧ ∀ N, Covers N G' → P N t

/-- An analysis that fails or records a failure, whatever it finds. -/
structure Fails {τ β : Type} (act : Analysis (τ × Verdict β)) : Prop where
  error : ∀ s, (act s).2.errors = #[] → ∃ e, (act s).1.2 = .error e
  errors : ∀ s, (act s).2.errors = #[] → s.errors = #[]

theorem Fails.still {τ β : Type} {act : Analysis (τ × Verdict β)} (e : TypingError)
    (h : ∀ s, ∃ t, act s = ((t, .error e), s)) : Fails act where
  error s _ := by
    obtain ⟨t, ht⟩ := h s
    exact ⟨e, by rw [ht]⟩
  errors s hs := by
    obtain ⟨t, ht⟩ := h s
    rwa [ht] at hs

/-- A failure that is recorded is not forgotten. -/
theorem Fails.recorded {τ β : Type} (e : TypingError) {act : Analysis (τ × Verdict β)}
    (h : ∀ s, (act s).2.errors = #[] → s.errors = #[]) : Fails (do record e; act) where
  error s hs := absurd (h _ hs) (by simp)
  errors s hs := absurd (h _ hs) (by simp)

/-- A check that leaves names alone, and what its success says. -/
structure Checked {α : Type} (L : Locals) (c : Check α) (Q : Names → α → Prop) : Prop where
  quiet : Quiet c
  holds : ∀ ⦃s a s'⦄, outcome c s = (.ok a, s') → ∀ G, Stands L G s → ∀ N, Covers N G → Q N a

section Basics

variable {L L' L'' : Locals} {new new' : List String} {G G' G'' : List Symbol} {N : Names}
  {s s' : State} {τ σ α β γ : Type}

theorem Gains.refl (G : List Symbol) : Gains [] G G := ⟨List.Subset.refl _, fun _ h => .inl h⟩

theorem Gains.trans (h : Gains new G G') (k : Gains new' G' G'') :
    Gains (new ++ new') G G'' where
  old := List.Subset.trans h.old k.old
  new sym hsym := by
    rcases k.new sym hsym with hsym | ⟨hobject, hname⟩
    · exact (h.new sym hsym).imp_right fun ⟨ho, hn⟩ => ⟨ho, List.mem_append_left _ hn⟩
    · exact .inr ⟨hobject, List.mem_append_right _ hname⟩

theorem Covers.mono (h : Covers N G') (hG : G ⊆ G') : Covers N G :=
  ⟨fun sym hsym => h.objects sym (hG hsym), fun sym hsym => h.functions sym (hG hsym)⟩

theorem Stands.same (h : Stands L G s) (hs : Same s s') : Stands L G s' := by
  obtain ⟨frames, hsymbols, hrest⟩ := h
  exact ⟨frames, hs.symbols.trans hsymbols, hrest⟩

theorem Quiet.checked {c : Check α} (h : Quiet c) : Checked L c fun _ _ => True :=
  ⟨h, fun _ _ _ _ _ _ _ _ => trivial⟩

namespace Analyzes

variable {P : Names → τ → Prop} {R : Names → σ → Prop} {x : Analysis (τ × Verdict β)}
  {k : τ × Verdict β → Analysis (σ × Verdict γ)}

theorem fail {act : Analysis (σ × Verdict γ)} (h : Fails act) : Analyzes L L' new act R where
  errors := h.errors
  named s t b s' hrun herrors := by
    obtain ⟨e, he⟩ := h.error s (by rw [hrun]; exact herrors)
    rw [hrun] at he
    cases he

theorem bind_new (hx : Analyzes L L' new x P)
    (hk : ∀ t b, Analyzes L' L'' new' (k (t, .ok b)) fun N u => P N t → R N u)
    (hf : ∀ t e, Fails (k (t, .error e))) : Analyzes L L'' (new ++ new') (x >>= k) R where
  errors s h := by
    refine hx.errors s ?_
    obtain ⟨⟨⟨t, v⟩, s₁⟩, hrun⟩ : ∃ y, x s = y := ⟨_, rfl⟩
    replace h : (k (x s).1 (x s).2).2.errors = #[] := h
    rw [hrun] at h ⊢
    cases v with
    | ok b => exact (hk t b).errors s₁ h
    | error e => exact (hf t e).errors s₁ h
  named s u c s' hrun herrors G hG := by
    obtain ⟨⟨⟨t, v⟩, s₁⟩, hx₁⟩ : ∃ y, x s = y := ⟨_, rfl⟩
    replace hrun : k (x s).1 (x s).2 = ((u, .ok c), s') := hrun
    rw [hx₁] at hrun
    cases v with
    | error e =>
      obtain ⟨e', he⟩ := (hf t e).error s₁ (by rw [hrun]; exact herrors)
      rw [hrun] at he
      cases he
    | ok b =>
      have herrors₁ : s₁.errors = #[] := (hk t b).errors s₁ (by rw [hrun]; exact herrors)
      obtain ⟨G₁, hG₁, hgains₁, hP⟩ := hx.named hx₁ herrors₁ G hG
      obtain ⟨G₂, hG₂, hgains₂, hR⟩ := (hk t b).named hrun herrors G₁ hG₁
      exact ⟨G₂, hG₂, hgains₁.trans hgains₂, fun N hN => hR N hN (hP N (hN.mono hgains₂.old))⟩

theorem bind (hx : Analyzes L L' [] x P)
    (hk : ∀ t b, Analyzes L' L'' new' (k (t, .ok b)) fun N u => P N t → R N u)
    (hf : ∀ t e, Fails (k (t, .error e))) : Analyzes L L'' new' (x >>= k) R :=
  hx.bind_new hk hf

/-- What follows gains nothing. -/
theorem bind_last (hx : Analyzes L L' new x P)
    (hk : ∀ t b, Analyzes L' L'' [] (k (t, .ok b)) fun N u => P N t → R N u)
    (hf : ∀ t e, Fails (k (t, .error e))) : Analyzes L L'' new (x >>= k) R := by
  have hbind := hx.bind_new hk hf
  rwa [List.append_nil] at hbind

theorem pure {u : σ} {v : Verdict γ} (h : ∀ N, R N u) :
    Analyzes L L [] (Pure.pure (u, v) : Analysis (σ × Verdict γ)) R where
  errors _ h := h
  named s t b s' hrun _ G hG := by
    cases hrun
    exact ⟨G, hG, Gains.refl G, fun N _ => h N⟩

theorem mono {act : Analysis (τ × Verdict β)} {P' : Names → τ → Prop} (h : Analyzes L L' new act P)
    (hP : ∀ N t, P N t → P' N t) : Analyzes L L' new act P' where
  errors := h.errors
  named s t b s' hrun herrors G hG := by
    obtain ⟨G', hG', hgains, hN⟩ := h.named hrun herrors G hG
    exact ⟨G', hG', hgains, fun N hcovers => hP N t (hN N hcovers)⟩

theorem get_bind {k : State → Analysis (σ × Verdict γ)} (hk : ∀ s, Analyzes L L' new (k s) R) :
    Analyzes L L' new (get >>= k) R where
  errors s h := (hk s).errors s h
  named s _ _ _ hrun := (hk s).named (s := s) hrun

/-- A check on the way. -/
theorem check {c : Check α} {Q : Names → α → Prop} {k : Verdict α → Analysis (σ × Verdict γ)}
    (hc : Checked L c Q) (hk : ∀ a, Analyzes L L' new (k (.ok a)) fun N u => Q N a → R N u)
    (hf : ∀ e, Fails (k (.error e))) : Analyzes L L' new (outcome c >>= k) R where
  errors s h := by
    have hsame := hc.quiet s
    obtain ⟨⟨v, s₁⟩, hrun⟩ : ∃ y, outcome c s = y := ⟨_, rfl⟩
    rw [run_bind hrun] at h
    rw [hrun] at hsame
    rw [← hsame.errors]
    cases v with
    | ok a => exact (hk a).errors s₁ h
    | error e => exact (hf e).errors s₁ h
  named s u b s' hrun herrors G hG := by
    have hsame := hc.quiet s
    obtain ⟨⟨v, s₁⟩, hc₁⟩ : ∃ y, outcome c s = y := ⟨_, rfl⟩
    rw [run_bind hc₁] at hrun
    rw [hc₁] at hsame
    cases v with
    | error e =>
      obtain ⟨e', he⟩ := (hf e).error s₁ (by rw [hrun]; exact herrors)
      rw [hrun] at he
      cases he
    | ok a =>
      obtain ⟨G', hG', hgains, hR⟩ := (hk a).named hrun herrors G (hG.same hsame)
      exact ⟨G', hG', hgains, fun N hN =>
        hR N hN (hc.holds hc₁ G hG N (hN.mono hgains.old))⟩

theorem finish {c : Check γ} {Q : Names → γ → Prop} {u : σ} (hc : Checked L c Q)
    (h : ∀ N a, Q N a → R N u) :
    Analyzes L L [] (outcome c >>= fun v => Pure.pure (u, v) : Analysis (σ × Verdict γ)) R :=
  check hc (fun a => pure fun N => h N a) fun e => .still e fun _ => ⟨_, rfl⟩

theorem typed {kind : ExprKind} {span : Span} {before : Option TypeId} {c : Check TypeId}
    {Q : Names → TypeId → Prop} {R : Names → Expr → Prop} (hc : Checked L c Q)
    (h : ∀ N t, Q N t → R N ⟨kind, span, some t⟩) :
    Analyzes L L [] (typed kind span before c) R :=
  check hc (fun t => pure fun N => h N t) fun e => .still e fun _ => ⟨_, rfl⟩

theorem folded {kind : ExprKind} {span : Span} {before : Option TypeId} {c : Check Nat}
    {R : Names → Expr → Prop} (hc : Quiet c)
    (h : ∀ N n t, R N ⟨.integer n, span, some t⟩) :
    Analyzes L L [] (folded kind span before c) R :=
  check hc.checked (fun _ => get_bind fun _ => pure fun N _ => h N _ _)
    fun e => .still e fun _ => ⟨_, rfl⟩

theorem memberExpr {kind : Option MemberRef → ExprKind} {span : Span} {before : Option TypeId}
    {old : Option MemberRef} {c : Check MemberRef} {R : Names → Expr → Prop} (hc : Quiet c)
    (h : ∀ N m, R N ⟨kind (some m), span, some m.ty⟩) :
    Analyzes L L [] (memberExpr kind span before old c) R :=
  check hc.checked (fun m => pure fun N _ => h N m) fun e => .still e fun _ => ⟨_, rfl⟩

/-- What is declared in a scope is gone after it. -/
theorem inScope {act : Analysis (τ × Verdict β)} {scope : List String}
    (h : Analyzes ([] :: L) (scope :: L) new act P) : Analyzes L L new (inScope act) P where
  errors s hs := h.errors { s with scope := s.scope.push } hs
  named s t b s' hrun herrors G hG := by
    obtain ⟨frames, hsymbols, hnames, hobjects⟩ := hG
    obtain ⟨⟨⟨u, v⟩, s₁⟩, hact⟩ : ∃ y, act { s with scope := s.scope.push } = y := ⟨_, rfl⟩
    replace hrun : ((act { s with scope := s.scope.push }).1,
      { (act { s with scope := s.scope.push }).2 with
        scope := (act { s with scope := s.scope.push }).2.scope.pop }) = ((t, .ok b), s') := hrun
    rw [hact] at hrun
    cases hrun
    have hpush : Stands ([] :: L) G { s with scope := s.scope.push } := by
      refine ⟨[] :: frames, congrArg ([] :: ·) hsymbols, congrArg ([] :: ·) hnames, ?_⟩
      intro frame hframe
      rcases List.mem_cons.mp hframe with rfl | hframe
      · nofun
      · exact hobjects frame hframe
    obtain ⟨G', ⟨frames', hsymbols', hnames', hobjects'⟩, hgains, hP⟩ :=
      h.named hact herrors G hpush
    refine ⟨G', ?_, hgains, hP⟩
    cases frames' with
    | nil => cases hnames'
    | cons frame frames' =>
      exact ⟨frames', Scope.symbols_pop hsymbols' (by simp), (List.cons.inj hnames').2,
        fun f hf => hobjects' f (List.mem_cons_of_mem _ hf)⟩

/-- What goes on around an analysis without failures and names makes no difference. -/
theorem around {act : Analysis (τ × Verdict β)} {f g : State → State} (hf : ∀ s, Same s (f s))
    (hg : ∀ s, Same s (g s)) (h : Analyzes L L' new act P) :
    Analyzes L L' new (do
      modify f
      let a ← act
      modify g
      return a) P where
  errors s hs := by
    replace hs : (g (act (f s)).2).errors = #[] := hs
    rw [(hg _).errors] at hs
    rw [← (hf s).errors]
    exact h.errors (f s) hs
  named s t b s' hrun herrors G hG := by
    obtain ⟨⟨⟨u, v⟩, s₁⟩, hact⟩ : ∃ y, act (f s) = y := ⟨_, rfl⟩
    replace hrun : ((act (f s)).1, g (act (f s)).2) = ((t, .ok b), s') := hrun
    rw [hact] at hrun
    cases hrun
    rw [(hg s₁).errors] at herrors
    obtain ⟨G', hG', hgains, hP⟩ := h.named hact herrors G (hG.same (hf s))
    exact ⟨G', hG'.same (hg s₁), hgains, hP⟩

theorem inLoop {act : Analysis (τ × Verdict β)} (h : Analyzes L L' new act P) :
    Analyzes L L' new (inLoop act) P :=
  h.around (fun _ => ⟨rfl, rfl⟩) fun _ => ⟨rfl, rfl⟩

end Analyzes

end Basics

/-! Names that are looked up or defined. -/

section Lookup

variable {L : Locals} {G : List Symbol} {N : Names} {s : State}

theorem lookup_eq (scope : Scope) (name : String) :
    scope.lookup name = scope.symbols.findSome? (·.find? (·.name == name)) := by
  rw [Scope.symbols, List.findSome?_map]
  rfl

/-- A name that is found is that of a local or of a symbol of the global frame. -/
theorem Stands.lookup {name : String} {sym : Symbol} (h : Stands L G s)
    (hsym : s.scope.lookup name = some sym) :
    sym.name = name ∧ (sym.IsObject ∧ (∃ scope ∈ L, name ∈ scope) ∨ sym ∈ G) := by
  obtain ⟨frames, hsymbols, rfl, hobjects⟩ := h
  rw [lookup_eq, hsymbols] at hsym
  obtain ⟨frame, hframe, hfind⟩ := List.exists_of_findSome?_eq_some hsym
  have hname : sym.name = name := by simpa using List.find?_some hfind
  have hmem := List.mem_of_find?_eq_some hfind
  refine ⟨hname, ?_⟩
  rcases List.mem_append.mp hframe with hframe | hframe
  · exact .inl ⟨hobjects frame hframe sym hmem, _, List.mem_map_of_mem hframe,
      List.mem_map.mpr ⟨sym, hmem, hname⟩⟩
  · obtain rfl := List.mem_singleton.mp hframe
    exact .inr hmem

theorem checked_nameType (name : String) (span : Span) :
    Checked L (nameType name span) fun N _ => (∃ scope ∈ L, name ∈ scope) ∨ N.globals name where
  quiet := quiet_nameType name span
  holds s t s' hrun G hG N hN := by
    rw [nameType, outcome_get_bind] at hrun
    split at hrun
    · cases hrun
    · rename_i sym hkind hlookup
      obtain ⟨rfl, ⟨-, hlocal⟩ | hglobal⟩ := hG.lookup hlookup
      · exact .inl hlocal
      · refine .inr (hN.objects sym hglobal ?_)
        obtain ⟨name, kind, ty, span⟩ := sym
        cases kind with
        | function sig => exact absurd rfl (hkind name sig ty span)
        | _ => trivial
    · cases hrun

theorem takes_of_checkArgumentCount {α : Type} {sig : Signature} {count : Nat} {span : Span}
    {k : Unit → Check α} {a : α} {s' : State}
    (h : outcome (checkArgumentCount sig count span >>= k) s = (.ok a, s')) : sig.Takes count := by
  rw [outcome_bind] at h
  unfold checkArgumentCount at h
  by_cases hbad : (decide (count < sig.params.length) ||
      (!sig.variadic && decide (sig.params.length < count))) = true
  · simp only [hbad, if_true] at h
    cases h
  · simp only [Bool.or_eq_true, Bool.and_eq_true, Bool.not_eq_true', decide_eq_true_eq] at hbad
    refine ⟨by omega, ?_⟩
    cases hv : sig.variadic with
    | true => exact .inl rfl
    | false => exact .inr (by simp only [hv, true_and] at hbad; omega)

/-- The function that is called is that of the global frame, as locals are no functions. -/
theorem checked_calledFunction (callee : Expr) (count : Nat) (span : Span) :
    Checked L (do
        let (ret, sig) ← calledFunction callee
        checkArgumentCount sig count span
        return (ret, sig))
      fun N _ => Scoped.fitsCall N callee count where
  quiet := (quiet_calledFunction callee).bind fun _ =>
    (quiet_checkArgumentCount _ _ _).bind fun _ => .pure _
  holds s x s' hrun G hG N hN := by
    intro name hname
    rw [outcome_bind] at hrun
    simp only [calledFunction, hname, outcome_get_bind] at hrun
    cases hlookup : s.scope.lookup name with
    | none => rw [hlookup] at hrun; cases hrun
    | some sym =>
      obtain ⟨symName, kind, ty, symSpan⟩ := sym
      rw [hlookup] at hrun
      cases kind with
      | function sig =>
        obtain ⟨hsymName, hlocal | hglobal⟩ := hG.lookup hlookup
        · exact absurd hlocal.1 id
        · have hcount := takes_of_checkArgumentCount hrun
          exact hsymName ▸ hN.functions _ hglobal sig rfl count hcount
      | _ => cases hrun

/-- A definition adds an object to the innermost frame. -/
theorem outcome_define {sym : Symbol} {s' : State} {u : Unit}
    (h : outcome (define sym) s = (.ok u, s')) : s' = { s with scope := s.scope.replace sym } := by
  rw [define, outcome_enter, Scope.define] at h
  cases hsym : s.scope.inner.symbol? sym.name with
  | some old => rw [hsym] at h; cases h
  | none =>
    rw [hsym] at h
    cases h
    rfl

theorem Stands.replace {sym : Symbol} (h : Stands L G s) (hsym : sym.IsObject) :
    ∃ G', Stands (L.declare sym.name) G' { s with scope := s.scope.replace sym } ∧
      Gains (L.fresh [sym.name]) G G' := by
  obtain ⟨frames, hsymbols, rfl, hobjects⟩ := h
  have hreplace : (s.scope.replace sym).symbols =
      (sym :: s.scope.inner.symbols) :: s.scope.outer.map (·.symbols) := rfl
  cases frames with
  | nil =>
    obtain ⟨hinner, houter⟩ := List.cons.inj hsymbols
    refine ⟨sym :: G, ⟨[], ?_, rfl, nofun⟩, List.subset_cons_self _ _, ?_⟩
    · rw [hreplace, houter, show s.scope.inner.symbols = G from hinner]
      rfl
    · intro sym' hsym'
      rcases List.mem_cons.mp hsym' with rfl | hsym'
      · exact .inr ⟨hsym, List.mem_singleton.mpr rfl⟩
      · exact .inl hsym'
  | cons frame frames =>
    obtain ⟨hinner, houter⟩ := List.cons.inj hsymbols
    refine ⟨G, ⟨(sym :: frame) :: frames, ?_, rfl, ?_⟩, Gains.refl G⟩
    · rw [hreplace, houter, show s.scope.inner.symbols = frame from hinner]
      rfl
    · intro f hf sym' hsym'
      rcases List.mem_cons.mp hf with rfl | hf
      · rcases List.mem_cons.mp hsym' with rfl | hsym'
        · exact hsym
        · exact hobjects frame (List.mem_cons_self ..) sym' hsym'
      · exact hobjects f (List.mem_cons_of_mem _ hf) sym' hsym'

/-- A check that adds names to those in scope. -/
structure Moves {α : Type} (L L' : Locals) (new : List String) (c : Check α) : Prop where
  errors : ∀ s, (outcome c s).2.errors = s.errors
  stands : ∀ ⦃s a s'⦄, outcome c s = (.ok a, s') → ∀ G, Stands L G s →
    ∃ G', Stands L' G' s' ∧ Gains new G G'

theorem moves_define {sym : Symbol} (hsym : sym.IsObject) :
    Moves L (L.declare sym.name) (L.fresh [sym.name]) (define sym) where
  errors s := by
    rw [define, outcome_enter]
    split <;> rfl
  stands s a s' hrun G hG := by
    obtain rfl := outcome_define hrun
    exact hG.replace hsym

theorem Moves.bind {α β : Type} {L' L'' : Locals} {c : Check α} {k : α → Check β}
    (hc : Moves L L' [] c) (hk : ∀ a, Moves L' L'' [] (k a)) : Moves L L'' [] (c >>= k) where
  errors s := by
    have hfirst := hc.errors s
    rw [outcome_bind]
    cases h : outcome c s with
    | mk v s' =>
      rw [h] at hfirst
      cases v with
      | ok a => exact ((hk a).errors s').trans hfirst
      | error e => exact hfirst
  stands s b s' hrun G hG := by
    rw [outcome_bind] at hrun
    cases h : outcome c s with
    | mk v s₁ =>
      rw [h] at hrun
      cases v with
      | ok a =>
        obtain ⟨G₁, hG₁, hgains₁⟩ := hc.stands h G hG
        obtain ⟨G₂, hG₂, hgains₂⟩ := (hk a).stands hrun G₁ hG₁
        exact ⟨G₂, hG₂, hgains₁.trans hgains₂⟩
      | error e => cases hrun

theorem Quiet.moves {α : Type} {c : Check α} (h : Quiet c) : Moves L L [] c where
  errors s := (h s).errors
  stands s a s' hrun G hG := ⟨G, hG.same (by simpa [hrun] using h s), Gains.refl G⟩

theorem Analyzes.defines {α σ γ : Type} {L' L'' : Locals} {new : List String} {c : Check α}
    {k : Verdict α → Analysis (σ × Verdict γ)} {R : Names → σ → Prop} (hc : Moves L L' new c)
    (hk : ∀ a, Analyzes L' L'' [] (k (.ok a)) R) (hf : ∀ e, Fails (k (.error e))) :
    Analyzes L L'' new (outcome c >>= k) R where
  errors s h := by
    rw [← hc.errors s]
    obtain ⟨⟨v, s₁⟩, hrun⟩ : ∃ y, outcome c s = y := ⟨_, rfl⟩
    rw [run_bind hrun] at h
    rw [hrun]
    cases v with
    | ok a => exact (hk a).errors s₁ h
    | error e => exact (hf e).errors s₁ h
  named s u b s' hrun herrors G hG := by
    obtain ⟨⟨v, s₁⟩, hc₁⟩ : ∃ y, outcome c s = y := ⟨_, rfl⟩
    rw [run_bind hc₁] at hrun
    cases v with
    | error e =>
      obtain ⟨e', he⟩ := (hf e).error s₁ (by rw [hrun]; exact herrors)
      rw [hrun] at he
      cases he
    | ok a =>
      obtain ⟨G₁, hG₁, hgains₁⟩ := hc.stands hc₁ G hG
      obtain ⟨G₂, hG₂, hgains₂, hR⟩ := (hk a).named hrun herrors G₁ hG₁
      exact ⟨G₂, hG₂, by simpa using hgains₁.trans hgains₂, hR⟩

end Lookup

end MiniC.Typing
