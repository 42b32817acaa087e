import MiniC.Proofs.Typing.Resolution
/-!
Analyses and the typing judgement. An analysis that neither fails nor records a failure leads from one
site to another, and what it made of its tree is judged in every later environment. Main statements:
acceptance goes through sequences, checks, scopes, loops and definitions.
-/
namespace MiniC

theorem Scope.frames_pop (s : Scope) {f : ScopeFrame} (h : f ∈ s.pop.inner :: s.pop.outer) :
    f ∈ s.inner :: s.outer := by
  obtain ⟨inner, outer⟩ := s
  cases outer with
  | nil => exact h
  | cons g gs => exact List.mem_cons_of_mem _ h

end MiniC

namespace MiniC.Typing

open Syntax Check
open Registry (Grows)

/-- A site with one more scope. -/
structure Site.Encloses (C D : Site) : Prop where
  frames : ∃ frame, D.frames = frame :: C.frames
  loops : D.loops = C.loops
  returns : D.returns = C.returns

namespace Site

variable {C D : Site}

theorem encloses_inner (C : Site) : C.Encloses C.inner := ⟨⟨[], rfl⟩, rfl, rfl⟩

theorem Encloses.declare (h : C.Encloses D) (sym : Symbol) : C.Encloses (D.declare sym) := by
  obtain ⟨⟨frame, hframes⟩, hloops, hreturns⟩ := h
  exact ⟨⟨sym :: frame, by simp only [Site.declare, hframes, Frames.declare]⟩, hloops, hreturns⟩

theorem Encloses.afterVars (h : C.Encloses D) (vs : List VarDecl) : C.Encloses (D.afterVars vs) := by
  induction vs generalizing D with
  | nil => exact h
  | cons v vs ih => exact ih (h.declare _)

theorem Encloses.afterDecl (h : C.Encloses D) (d : Declaration) : C.Encloses (D.afterDecl d) := by
  obtain ⟨kind, span⟩ := d
  cases kind with
  | vars vs => exact h.afterVars vs
  | struct spec => exact h

theorem Encloses.afterItems (h : C.Encloses D) (is : List BlockItem) :
    C.Encloses (D.afterItems is) := by
  induction is generalizing D with
  | nil => exact h
  | cons i is ih =>
    cases i with
    | statement s => exact ih h
    | declaration d => exact ih (h.afterDecl d)

theorem Encloses.afterInit (h : C.Encloses D) (i : Option LoopInit) : C.Encloses (D.afterInit i) := by
  cases i with
  | none => exact h
  | some i =>
    cases i with
    | expr e => exact h
    | declaration d => exact h.afterDecl d

end Site

section Ready

variable {C D : Site} {G : List Symbol} {s : State}

theorem Ready.push (h : Ready C G s) : Ready C.inner G { s with scope := s.scope.push } where
  sound := h.sound
  symbols := congrArg ([] :: ·) h.symbols
  objects frame hframe := by
    rcases List.mem_cons.mp hframe with rfl | hframe
    · exact List.forall_mem_nil _
    · exact h.objects frame hframe
  fits frame hframe := by
    rcases List.mem_cons.mp hframe with rfl | hframe
    · exact List.forall_mem_nil _
    · exact h.fits frame hframe
  tags frame hframe := by
    rcases List.mem_cons.mp hframe with rfl | hframe
    · exact List.forall_mem_nil _
    · exact h.tags frame hframe
  specs := h.specs
  returns := h.returns
  result := h.result
  loops := h.loops

/-- Back in the scope around. -/
theorem Ready.pop (h : Ready D G s) (hD : C.Encloses D) :
    Ready C G { s with scope := s.scope.pop } := by
  obtain ⟨⟨frame, hframes⟩, hloops, hreturns⟩ := hD
  have hsymbols : s.scope.symbols = frame :: (C.frames ++ [G]) := by
    rw [h.symbols, hframes]
    rfl
  exact {
    sound := h.sound
    symbols := Scope.symbols_pop hsymbols (by simp)
    objects := fun f hf => h.objects f (hframes ▸ List.mem_cons_of_mem _ hf)
    fits := fun f hf => by
      obtain ⟨g, hg, rfl⟩ := List.mem_map.mp hf
      exact h.fits _ (List.mem_map_of_mem (s.scope.frames_pop hg))
    tags := fun f hf => h.tags f (s.scope.frames_pop hf)
    specs := h.specs
    returns := h.returns.trans hreturns
    result := fun t ht => h.result t (hreturns ▸ ht)
    loops := h.loops.trans hloops }

theorem Ready.enterLoop (h : Ready C G s) :
    Ready C.inLoop G { s with loopDepth := s.loopDepth + 1 } :=
  { h with loops := congrArg (· + 1) h.loops }

theorem Ready.leaveLoop (h : Ready C.inLoop G s) :
    Ready C G { s with loopDepth := s.loopDepth - 1 } :=
  { h with loops := by rw [h.loops]; rfl }

/-- The scope is the global one outside of functions. -/
theorem Ready.isGlobal_eq (h : Ready C G s) : s.scope.isGlobal = C.isGlobal := by
  have hlength := congrArg List.length h.symbols
  simp only [Scope.symbols, List.length_map, List.length_cons, List.length_append,
    List.length_nil, Nat.add_right_cancel_iff] at hlength
  cases houter : s.scope.outer <;> cases hframes : C.frames <;>
    simp_all [Scope.isGlobal, Site.isGlobal]

/-- A symbol that is put into the innermost frame. -/
theorem Ready.replace {sym : Symbol} (h : Ready C G s) (hobject : C.frames ≠ [] → sym.IsObject)
    (hfits : sym.Fits s.registry) :
    ∃ G', Ready (C.declare sym) G' { s with scope := s.scope.replace sym } ∧ G ⊆ G' := by
  have hreplace : (s.scope.replace sym).symbols =
      (sym :: s.scope.inner.symbols) :: s.scope.outer.map (·.symbols) := rfl
  have hall : ∀ frame ∈ (s.scope.replace sym).symbols, ∀ sym' ∈ frame, sym'.Fits s.registry := by
    intro frame hframe sym' hsym'
    rcases List.mem_cons.mp hframe with rfl | hframe
    · rcases List.mem_cons.mp hsym' with rfl | hsym'
      · exact hfits
      · exact h.fits _ (List.mem_cons_self ..) sym' hsym'
    · exact h.fits frame (List.mem_cons_of_mem _ hframe) sym' hsym'
  have htags : ∀ frame ∈ (s.scope.replace sym).inner :: (s.scope.replace sym).outer,
      ∀ tag ∈ frame.tags, s.registry.isStruct tag.ty = true := by
    intro frame hframe
    rcases List.mem_cons.mp hframe with rfl | hframe
    · exact h.tags s.scope.inner (List.mem_cons_self ..)
    · exact h.tags frame (List.mem_cons_of_mem _ hframe)
  obtain ⟨frames, loops, returns⟩ := C
  cases frames with
  | nil =>
    obtain ⟨hinner, houter⟩ := List.cons.inj h.symbols
    refine ⟨sym :: G, ⟨⟨h.sound.consistent, h.sound.solid⟩, ?_, nofun, hall, htags, h.specs, h.returns,
      h.result, h.loops⟩, List.subset_cons_self _ _⟩
    rw [hreplace, houter, show s.scope.inner.symbols = G from hinner]
    rfl
  | cons frame frames =>
    obtain ⟨hinner, houter⟩ := List.cons.inj h.symbols
    refine ⟨G, { h with symbols := ?_, objects := ?_, fits := hall, tags := htags },
      List.Subset.refl _⟩
    · rw [hreplace, houter, show s.scope.inner.symbols = frame from hinner]
      rfl
    · intro f hf sym' hsym'
      rcases List.mem_cons.mp hf with rfl | hf
      · rcases List.mem_cons.mp hsym' with rfl | hsym'
        · exact hobject (by simp)
        · exact h.objects frame (List.mem_cons_self ..) sym' hsym'
      · exact h.objects f (List.mem_cons_of_mem _ hf) sym' hsym'

end Ready

/-- A check that leads from one site to another. -/
structure Advances {α : Type} (C C' : Site) (K : Env → Prop) (c : Check α) : Prop where
  errors : ∀ s, (outcome c s).2.errors = s.errors
  ready : ∀ ⦃s a s'⦄, outcome c s = (.ok a, s') → ∀ G, Ready C G s →
    (∀ E, Later (s.env G) E → K E) → ∃ G', Ready C' G' s' ∧ Later (s.env G) (s'.env G')

theorem Advances.pure {α : Type} {C : Site} {K : Env → Prop} (a : α) :
    Advances C C K (Pure.pure a : Check α) where
  errors _ := rfl
  ready s _ s' hrun G hG _ := by
    cases hrun
    exact ⟨G, hG, hG.now⟩

/-- A definition adds a symbol to the innermost frame. -/
theorem advances_define {C : Site} {K : Env → Prop} {sym : Symbol} (hobject : sym.IsObject)
    (hfits : ∀ E, E.Sound → K E → sym.Fits E.registry) :
    Advances C (C.declare sym) K (define sym) where
  errors := (moves_define (L := []) hobject).errors
  ready s u s' hrun G hG hK := by
    obtain rfl := outcome_define hrun
    obtain ⟨G', hG', hsub⟩ := hG.replace (fun _ => hobject) (hfits _ hG.sound (hK _ hG.now))
    exact ⟨G', hG', hG'.sound, Grows.refl _, hsub⟩

theorem Advances.bind {α β : Type} {C C' C'' : Site} {K : Env → Prop} {c : Check α} {k : α → Check β}
    (hc : Advances C C' K c) (hk : ∀ a, Advances C' C'' K (k a)) : Advances C C'' K (c >>= k) where
  errors s := by
    have hfirst := hc.errors s
    rw [outcome_bind]
    cases h : outcome c s with
    | mk v s' =>
      rw [h] at hfirst
      cases v with
      | ok a => exact ((hk a).errors s').trans hfirst
      | error e => exact hfirst
  ready s b s' hrun G hG hK := by
    rw [outcome_bind] at hrun
    cases h : outcome c s with
    | mk v s₁ =>
      rw [h] at hrun
      cases v with
      | ok a =>
        obtain ⟨G₁, hG₁, hlater₁⟩ := hc.ready h G hG hK
        obtain ⟨G₂, hG₂, hlater₂⟩ := (hk a).ready hrun G₁ hG₁ fun E hE => hK E (hlater₁.trans hE)
        exact ⟨G₂, hG₂, hlater₁.trans hlater₂⟩
      | error e => cases hrun

/-- An analysis that leads from one site to another, which its tree decides. If it neither fails nor
records a failure, then under assumptions that hold from then on, its tree is judged from then on. -/
structure Accepts {τ β : Type} (C : Site) (K : Env → Prop) (act : Analysis (τ × Verdict β))
    (C' : τ → Site) (P : Env → τ → β → Prop) : Prop where
  errors : ∀ s, (act s).2.errors = #[] → s.errors = #[]
  holds : ∀ ⦃s t b s'⦄, act s = ((t, .ok b), s') → s'.errors = #[] → ∀ G, Ready C G s →
    (∀ E, Later (s.env G) E → K E) →
      ∃ G', Ready (C' t) G' s' ∧ Later (s.env G) (s'.env G') ∧ ∀ E, Later (s'.env G') E → P E t b

namespace Accepts

variable {τ σ α β γ : Type} {C : Site} {K : Env → Prop} {C' : τ → Site} {C'' : σ → Site}
  {P : Env → τ → β → Prop} {R : Env → σ → γ → Prop}

theorem fail {act : Analysis (σ × Verdict γ)} (h : Fails act) : Accepts C K act C'' R where
  errors := h.errors
  holds s t b s' hrun herrors := by
    obtain ⟨e, he⟩ := h.error s (by rw [hrun]; exact herrors)
    rw [hrun] at he
    cases he

theorem bind {x : Analysis (τ × Verdict β)} {k : τ × Verdict β → Analysis (σ × Verdict γ)}
    (hx : Accepts C K x C' P)
    (hk : ∀ t b, Accepts (C' t) (fun E => K E ∧ P E t b) (k (t, .ok b)) C'' R)
    (hf : ∀ t e, Fails (k (t, .error e))) : Accepts C K (x >>= k) C'' R where
  errors s h := by
    refine hx.errors s ?_
    obtain ⟨⟨⟨t, v⟩, s₁⟩, hrun⟩ : ∃ y, x s = y := ⟨_, rfl⟩
    replace h : (k (x s).1 (x s).2).2.errors = #[] := h
    rw [hrun] at h ⊢
    cases v with
    | ok b => exact (hk t b).errors s₁ h
    | error e => exact (hf t e).errors s₁ h
  holds s u c s' hrun herrors G hG hK := by
    obtain ⟨⟨⟨t, v⟩, s₁⟩, hx₁⟩ : ∃ y, x s = y := ⟨_, rfl⟩
    replace hrun : k (x s).1 (x s).2 = ((u, .ok c), s') := hrun
    rw [hx₁] at hrun
    cases v with
    | error e =>
      obtain ⟨e', he⟩ := (hf t e).error s₁ (by rw [hrun]; exact herrors)
      rw [hrun] at he
      cases he
    | ok b =>
      have herrors₁ : s₁.errors = #[] := (hk t b).errors s₁ (by rw [hrun]; exact herrors)
      obtain ⟨G₁, hG₁, hlater₁, hP⟩ := hx.holds hx₁ herrors₁ G hG hK
      obtain ⟨G₂, hG₂, hlater₂, hR⟩ := (hk t b).holds hrun herrors G₁ hG₁ fun E hE =>
        ⟨hK E (hlater₁.trans hE), hP E hE⟩
      exact ⟨G₂, hG₂, hlater₁.trans hlater₂, hR⟩

theorem pure {t : τ} {b : β} (hC : C' t = C) (h : ∀ E, E.Sound → K E → P E t b) :
    Accepts C K (Pure.pure (t, .ok b) : Analysis (τ × Verdict β)) C' P where
  errors _ h := h
  holds s _ _ s' hrun _ G hG hK := by
    cases hrun
    exact ⟨G, hC ▸ hG, hG.now, fun E hE => h E hE.sound (hK E hE)⟩

theorem mono {act : Analysis (τ × Verdict β)} {P' : Env → τ → β → Prop} (h : Accepts C K act C' P)
    (hP : ∀ E t b, E.Sound → K E → P E t b → P' E t b) : Accepts C K act C' P' where
  errors := h.errors
  holds s t b s' hrun herrors G hG hK := by
    obtain ⟨G', hG', hlater, hN⟩ := h.holds hrun herrors G hG hK
    exact ⟨G', hG', hlater, fun E hE =>
      hP E t b hE.sound (hK E (hlater.trans hE)) (hN E hE)⟩

theorem get_bind {k : State → Analysis (σ × Verdict γ)}
    (herrors : ∀ s, ((k s) s).2.errors = #[] → s.errors = #[])
    (hk : ∀ s G, Ready C G s → K (s.env G) →
      Accepts C (fun E => K E ∧ Later (s.env G) E) (k s) C'' R) :
    Accepts C K (get >>= k) C'' R where
  errors := herrors
  holds s _ _ _ hrun herrors G hG hK :=
    (hk s G hG (hK _ hG.now)).holds (s := s) hrun herrors G hG fun E hE => ⟨hK E hE, hE⟩

/-- A check on the way. -/
theorem check {c : Check α} {Q : Env → α → Prop} {k : Verdict α → Analysis (σ × Verdict γ)}
    (hc : Checks C K c Q) (hk : ∀ a, Accepts C (fun E => K E ∧ Q E a) (k (.ok a)) C'' R)
    (hf : ∀ e, Fails (k (.error e))) : Accepts C K (outcome c >>= k) C'' R where
  errors s h := by
    have hsame := hc.quiet s
    obtain ⟨⟨v, s₁⟩, hrun⟩ : ∃ y, outcome c s = y := ⟨_, rfl⟩
    rw [run_bind hrun] at h
    rw [hrun] at hsame
    rw [← hsame.errors]
    cases v with
    | ok a => exact (hk a).errors s₁ h
    | error e => exact (hf e).errors s₁ h
  holds s u b s' hrun herrors G hG hK := by
    obtain ⟨⟨v, s₁⟩, hc₁⟩ : ∃ y, outcome c s = y := ⟨_, rfl⟩
    rw [run_bind hc₁] at hrun
    cases v with
    | error e =>
      obtain ⟨e', he⟩ := (hf e).error s₁ (by rw [hrun]; exact herrors)
      rw [hrun] at he
      cases he
    | ok a =>
      obtain ⟨hG₁, hgrows, hQ⟩ := hc.holds hc₁ G hG hK
      have hlater : Later (s.env G) (s₁.env G) := ⟨hG₁.sound, hgrows, List.Subset.refl _⟩
      obtain ⟨G', hG', hlater', hR⟩ := (hk a).holds hrun herrors G hG₁ fun E hE =>
        ⟨hK E (hlater.trans hE), hQ E hE⟩
      exact ⟨G', hG', hlater.trans hlater', hR⟩

theorem finish {c : Check γ} {Q : Env → γ → Prop} {u : σ} (hC : C'' u = C) (hc : Checks C K c Q)
    (h : ∀ E a, E.Sound → K E → Q E a → R E u a) :
    Accepts C K (outcome c >>= fun v => Pure.pure (u, v) : Analysis (σ × Verdict γ)) C'' R :=
  check hc (fun a => pure hC fun E hE hK => h E a hE hK.1 hK.2) fun e => .still e fun _ => ⟨_, rfl⟩

theorem typed {kind : ExprKind} {span : Span} {before : Option TypeId} {c : Check TypeId}
    {Q : Env → TypeId → Prop} {R : Env → Expr → TypeId → Prop} (hc : Checks C K c Q)
    (h : ∀ E t, E.Sound → K E → Q E t → R E ⟨kind, span, some t⟩ t) :
    Accepts C K (typed kind span before c) (fun _ => C) R :=
  check hc (fun t => pure rfl fun E hE hK => h E t hE hK.1 hK.2) fun e => .still e fun _ => ⟨_, rfl⟩

theorem folded {kind : ExprKind} {span : Span} {before : Option TypeId} {c : Check Nat}
    {Q : Env → Nat → Prop} {R : Env → Expr → TypeId → Prop} (hc : Checks C K c Q)
    (h : ∀ E n t, E.Sound → E.registry.isInteger t = true → t = E.registry.cLong false →
      R E ⟨.integer n, span, some t⟩ t) :
    Accepts C K (folded kind span before c) (fun _ => C) R :=
  check hc (fun _ => get_bind (fun _ h => h) fun s G hG _ => pure rfl fun E hE hK => by
    have hlong := hG.sound.consistent.isInteger_cLong false
    have hsame : (s.env G).registry.cLong false = E.registry.cLong false := by
      rw [Registry.cLong, Registry.cLong, hK.2.registry.config]
    exact h E _ _ hE
      ((hK.2.registry.isInteger_eq (Registry.valid_of_isInteger hlong)).trans hlong) hsame)
    fun e => .still e fun _ => ⟨_, rfl⟩

theorem memberExpr {kind : Option MemberRef → ExprKind} {span : Span} {before : Option TypeId}
    {old : Option MemberRef} {c : Check MemberRef} {Q : Env → MemberRef → Prop}
    {R : Env → Expr → TypeId → Prop} (hc : Checks C K c Q)
    (h : ∀ E m, E.Sound → K E → Q E m → R E ⟨kind (some m), span, some m.ty⟩ m.ty) :
    Accepts C K (memberExpr kind span before old c) (fun _ => C) R :=
  check hc (fun m => pure rfl fun E hE hK => h E m hE hK.1 hK.2) fun e => .still e fun _ => ⟨_, rfl⟩

/-- What is declared in a scope is gone after it. -/
theorem inScope {act : Analysis (τ × Verdict β)} (hC : ∀ t, C.Encloses (C' t))
    (h : Accepts C.inner K act C' P) : Accepts C K (inScope act) (fun _ => C) P where
  errors s hs := h.errors { s with scope := s.scope.push } hs
  holds s t b s' hrun herrors G hG hK := by
    obtain ⟨⟨⟨u, v⟩, s₁⟩, hact⟩ : ∃ y, act { s with scope := s.scope.push } = y := ⟨_, rfl⟩
    replace hrun : ((act { s with scope := s.scope.push }).1,
      { (act { s with scope := s.scope.push }).2 with
        scope := (act { s with scope := s.scope.push }).2.scope.pop }) = ((t, .ok b), s') := hrun
    rw [hact] at hrun
    cases hrun
    obtain ⟨G', hG', hlater, hP⟩ := h.holds hact herrors G hG.push hK
    exact ⟨G', hG'.pop (hC t), hlater, hP⟩

theorem inLoop {act : Analysis (τ × Verdict β)} (h : Accepts C.inLoop K act (fun _ => C.inLoop) P) :
    Accepts C K (inLoop act) (fun _ => C) P where
  errors s hs := h.errors { s with loopDepth := s.loopDepth + 1 } hs
  holds s t b s' hrun herrors G hG hK := by
    obtain ⟨⟨⟨u, v⟩, s₁⟩, hact⟩ : ∃ y, act { s with loopDepth := s.loopDepth + 1 } = y := ⟨_, rfl⟩
    replace hrun : ((act { s with loopDepth := s.loopDepth + 1 }).1,
      { (act { s with loopDepth := s.loopDepth + 1 }).2 with
        loopDepth := (act { s with loopDepth := s.loopDepth + 1 }).2.loopDepth - 1 }) =
        ((t, .ok b), s') := hrun
    rw [hact] at hrun
    cases hrun
    obtain ⟨G', hG', hlater, hP⟩ := h.holds hact herrors G hG.enterLoop hK
    exact ⟨G', hG'.leaveLoop, hlater, hP⟩

/-- A definition on the way. -/
theorem advance {c : Check α} {C₁ : Site} {k : Verdict α → Analysis (σ × Verdict γ)}
    (hc : Advances C C₁ K c) (hk : ∀ a, Accepts C₁ K (k (.ok a)) C'' R)
    (hf : ∀ e, Fails (k (.error e))) : Accepts C K (outcome c >>= k) C'' R where
  errors s h := by
    obtain ⟨⟨v, s₁⟩, hrun⟩ : ∃ y, outcome c s = y := ⟨_, rfl⟩
    have hsame := hc.errors s
    rw [run_bind hrun] at h
    rw [hrun] at hsame
    rw [← hsame]
    cases v with
    | ok a => exact (hk a).errors s₁ h
    | error e => exact (hf e).errors s₁ h
  holds s u b s' hrun herrors G hG hK := by
    obtain ⟨⟨v, s₁⟩, hc₁⟩ : ∃ y, outcome c s = y := ⟨_, rfl⟩
    rw [run_bind hc₁] at hrun
    cases v with
    | error e =>
      obtain ⟨e', he⟩ := (hf e).error s₁ (by rw [hrun]; exact herrors)
      rw [hrun] at he
      cases he
    | ok a =>
      obtain ⟨G₁, hG₁, hlater⟩ := hc.ready hc₁ G hG hK
      obtain ⟨G', hG', hlater', hR⟩ := (hk a).holds hrun herrors G₁ hG₁ fun E hE =>
        hK E (hlater.trans hE)
      exact ⟨G', hG', hlater.trans hlater', hR⟩

end Accepts

end MiniC.Typing
