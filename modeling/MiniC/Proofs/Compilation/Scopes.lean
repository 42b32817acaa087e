import MiniC.Proofs.Compilation.Bindings
/-!
How the declarations in scope change. A local comes into scope where its symbol is defined and its
storage is allocated; initializers, expressions and statements leave the scopes as they are. Main
statements: past whatever both have analyzed and lowered, the same declarations are in scope.
-/
namespace MiniC

open Code (Temp)
open Syntax
open Typing (Passed Ready)
open Lowering (Extends Grows)

section

variable {config : Layout.Config} {u : CompilationUnit} {r : Registry} {tree : CompilationUnit}
  {C : Typing.Site} {G : List Symbol} {Δ : Entries} {s s' : Typing.State} {l l' : Lowering.State}

namespace Follows

variable {e e' : Expr} {t : TypeId} {x : Unit}

/-- What declares nothing leaves the declarations in scope as they are. -/
theorem after {τ β : Type} {act : Typing.Analysis (τ × Typing.Verdict β)} {K : Typing.Env → Prop}
    {P : Typing.Env → τ → β → Prop} {L : Locals} {Q : Code.Names → τ → Prop} {t : τ} {b : β}
    (h : Follows config u r tree C G Δ s l) (ha : Typing.Accepts C K act (fun _ => C) P)
    (hn : Typing.Analyzes (C.frames.map (·.map (·.name))) L [] act Q)
    (hK : ∀ E, Typing.Later (s.env G) E → K E) (hp : Passed act s t b s') (hl : Extends id l l') :
    ∃ G', Follows config u r tree C G' Δ s' l' ∧ P (s'.env G') t b ∧
      Registry.Grows s.registry s'.registry := by
  obtain ⟨G', hready, hG, hlater, hP⟩ := h.ready.after ha hn hK hp
  exact ⟨G', (h.analyzed hready hG).lowered hl, hP _ hready.now, hlater.registry⟩

theorem value (h : Follows config u r tree C G Δ s l) (hp : Passed (Typing.value e) s e' t s')
    (hl : Extends id l l') :
    ∃ G', Follows config u r tree C G' Δ s' l' ∧ s'.registry.Valid t ∧
      Registry.Grows s.registry s'.registry := by
  obtain ⟨G', hf, hP, hgrows⟩ := h.after (Typing.accepts_value C (fun _ => True) e)
    (Typing.analyzes_value _ e) (fun _ _ => trivial) hp hl
  exact ⟨G', hf, hP.valid, hgrows⟩

theorem expr (h : Follows config u r tree C G Δ s l) (hp : Passed (Typing.expr e) s e' t s')
    (hl : Extends id l l') :
    ∃ G', Follows config u r tree C G' Δ s' l' ∧ Typing.Judged C (s'.env G') e' t := by
  obtain ⟨G', hf, hP, -⟩ := h.after (Typing.accepts_expr C (fun _ => True) e)
    (Typing.analyzes_expr _ e) (fun _ _ => trivial) hp hl
  exact ⟨G', hf, hP⟩

theorem condition (h : Follows config u r tree C G Δ s l)
    (hp : Passed (Typing.condition e) s e' x s') (hl : Extends id l l') :
    ∃ G', Follows config u r tree C G' Δ s' l' := by
  obtain ⟨G', hf, -, -⟩ := h.after (Typing.accepts_condition C (fun _ => True) e)
    (Typing.analyzes_condition _ e) (fun _ _ => trivial) hp hl
  exact ⟨G', hf⟩

theorem condition? {o o' : Option Expr} (h : Follows config u r tree C G Δ s l)
    (hp : Passed (Typing.condition? o) s o' x s') (hl : Extends id l l') :
    ∃ G', Follows config u r tree C G' Δ s' l' := by
  obtain ⟨G', hf, -, -⟩ := h.after (Typing.accepts_condition? C (fun _ => True) o)
    (Typing.analyzes_condition? _ o) (fun _ _ => trivial) hp hl
  exact ⟨G', hf⟩

theorem expr? {o o' : Option Expr} (h : Follows config u r tree C G Δ s l)
    (hp : Passed (Typing.expr? o) s o' x s') (hl : Extends id l l') :
    ∃ G', Follows config u r tree C G' Δ s' l' := by
  obtain ⟨G', hf, -, -⟩ := h.after (Typing.accepts_expr? C (fun _ => True) o)
    (Typing.analyzes_expr? _ o) (fun _ _ => trivial) hp hl
  exact ⟨G', hf⟩

theorem stmt {st st' : Stmt} (h : Follows config u r tree C G Δ s l)
    (hp : Passed (Typing.stmt st) s st' x s') (hl : Extends id l l') :
    ∃ G', Follows config u r tree C G' Δ s' l' := by
  obtain ⟨G', hf, -, -⟩ := h.after (Typing.accepts_stmt C (fun _ => True) st)
    (Typing.analyzes_stmt _ st) (fun _ _ => trivial) hp hl
  exact ⟨G', hf⟩

/-- An initializer declares nothing; what it initializes is an object. -/
theorem initializer {i i' : Initializer} (h : Follows config u r tree C G Δ s l)
    (ht : s.registry.Valid t) (hvoid : s.registry.isVoid t = false)
    (hp : Passed (Typing.initializer t false i) s i' x s') (hl : Extends id l l') :
    ∃ G', Follows config u r tree C G' Δ s' l' ∧ Registry.Grows s.registry s'.registry := by
  obtain ⟨G', hf, -, hgrows⟩ := h.after (Typing.accepts_initializer C (Typing.Later (s.env G)) t false i
    h.not_isGlobal.symm fun E _ hE =>
      ⟨hE.registry.valid ht, (hE.registry.isVoid_eq ht).trans hvoid⟩)
    (Typing.analyzes_initializer _ t false i) (fun _ hE => hE) hp hl
  exact ⟨G', hf, hgrows⟩

/-- A check on the way. -/
theorem check {α : Type} {c : Typing.Check α} {K : Typing.Env → Prop} {Q : Typing.Env → α → Prop} {a : α}
    (h : Follows config u r tree C G Δ s l) (hc : Typing.Checks C K c Q)
    (hK : ∀ E, Typing.Later (s.env G) E → K E) (hrun : Typing.outcome c s = (.ok a, s')) :
    Follows config u r tree C G Δ s' l ∧ Q (s'.env G) a ∧
      Registry.Grows s.registry s'.registry := by
  obtain ⟨hready, hgrows, hQ⟩ := hc.holds hrun G h.ready hK
  exact ⟨h.analyzed hready (List.Subset.refl _), hQ _ hready.now, hgrows⟩

end Follows

section Declarations

variable {path : List Nat} {c : Lowering.Context} {v v' : VarDecl} {vs vs' : List VarDecl} {x : Unit}

theorem Lowering.allocate_eq_ok {slot : Temp} {t : TypeId} {r : Registry} {l l' : State}
    (h : allocate r t l = .ok (slot, l')) :
    slot = l.temps ∧ l'.temps = l.temps + 1 ∧ l'.slots = l.slots := by
  obtain ⟨_, _, hfresh, h⟩ := bind_eq_ok.mp h
  cases hfresh
  obtain ⟨_, _, hemit, h⟩ := bind_eq_ok.mp h
  obtain rfl := emit_eq_ok.mp hemit
  obtain ⟨rfl, rfl⟩ := pure_eq_ok.mp h
  exact ⟨rfl, rfl, rfl⟩

/-- Storage that is allocated and bound to a name. -/
structure Lowering.Binds (r : Registry) (name : String) (t : TypeId) (slot : Temp) (l l' : State) :
    Prop where
  allocated : ∃ l₁, allocate r t l = .ok (slot, l₁)
  new : slot = l.temps
  temps : l'.temps = l.temps + 1
  slots : l'.slots = match l.slots with
    | [] => []
    | scope :: outer => ((name, slot) :: scope) :: outer

theorem Lowering.binds_of_ok {r : Registry} {name : String} {t : TypeId} {slot : Temp} {y : Unit}
    {l l₁ l' : State} (h : allocate r t l = .ok (slot, l₁)) (k : bind name slot l₁ = .ok (y, l')) :
    Binds r name t slot l l' := by
  obtain ⟨hslot, htemps, hslots⟩ := allocate_eq_ok h
  cases k
  exact ⟨⟨l₁, h⟩, hslot, htemps, hslots ▸ rfl⟩

theorem Lowering.variableStart_eq_ok {r : Registry} {name : String} {t : TypeId} {i : Initializer}
    {p : Place} {l l' : State} (h : variableStart r name t i l = .ok (p, l')) :
    ∃ slot l₁, Binds r name t slot l l₁ ∧ Extends id l₁ l' := by
  obtain ⟨slot, l₁, halloc, h⟩ := bind_eq_ok.mp h
  obtain ⟨_, l₂, hbind, h⟩ := bind_eq_ok.mp h
  have hzero : Grows id (do
      if needsZeros r t i then Place.zero r ⟨.temp slot, 0, t⟩
      return (⟨.temp slot, 0, t⟩ : Place)) :=
    .ite ((grows_zero _ _).bind fun _ => .pure _) (.pure _)
  exact ⟨slot, l₂, binds_of_ok halloc hbind, hzero _ _ _ h⟩

theorem Lowering.localVar_eq_ok {l l' : State} (h : localVar c v l = .ok (x, l')) :
    ∃ t slot l₁, v.resolved = some t ∧ Binds c.registry v.name t slot l l₁ ∧ Extends id l₁ l' := by
  obtain ⟨name, ty, init, span, resolved⟩ := v
  rw [localVar] at h
  obtain ⟨t, _, ht, h⟩ := bind_eq_ok.mp h
  obtain ⟨rfl, rfl⟩ := need_eq_ok.mp ht
  obtain ⟨slot, l₁, halloc, h⟩ := bind_eq_ok.mp h
  obtain ⟨_, l₂, hbind, h⟩ := bind_eq_ok.mp h
  refine ⟨t, slot, l₂, rfl, binds_of_ok halloc hbind, ?_⟩
  cases init with
  | none =>
    obtain ⟨-, rfl⟩ := pure_eq_ok.mp h
    exact .refl _ _
  | some i =>
    have hinit := grows_initializer c ⟨.temp slot, 0, t⟩ i
    have hzero : Grows id (do
        if needsZeros c.registry t i then Place.zero c.registry ⟨.temp slot, 0, t⟩
        initializer c ⟨.temp slot, 0, t⟩ i) := .ite ((grows_zero _ _).bind fun _ => hinit) hinit
    exact hzero _ _ _ h

/-- The definition of a local puts the same declaration into scope on both sides. -/
theorem Follows.defines {t t' : TypeId} {s₁ s₂ : Typing.State} {slot : Temp}
    (hn : Typing.Visits config u path (.vars (v :: vs)) s)
    (hm : Lowering.Visits r tree path (.vars c (v' :: vs')) l)
    (h : Follows config u r tree C G Δ s l)
    (hcheck : Typing.outcome (Typing.checkVariable v) s = (.ok t, s₁))
    (hdefine : Typing.outcome (Typing.Check.define
      ⟨v.name, .variable s₁.scope.isGlobal, t, v.span⟩) s₁ = (.ok x, s₂))
    (hname : v'.name = v.name) (hresolved : v'.resolved = some t')
    (hbinds : Lowering.Binds c.registry v'.name t' slot l l') :
    s₁.scope.isGlobal = false ∧ s₂.registry.Valid t ∧ s₂.registry.isVoid t = false ∧
      ∃ d : Entry, Follows config u r tree (C.declare d.symbol) G (Δ.declare d) s₂ l' := by
  obtain ⟨h₁, ⟨hvalid, hvoid, -⟩, -⟩ :=
    h.check (Typing.checks_checkVariable (K := fun _ => True) v) (fun _ _ => trivial) hcheck
  have hglobal : s₁.scope.isGlobal = false := h₁.ready.isGlobal_eq.trans h₁.not_isGlobal
  let d : Entry := ⟨.variable path, ⟨v.name, .variable s₁.scope.isGlobal, t, v.span⟩, slot⟩
  have hfits : d.symbol.Fits s₁.registry := ⟨hvalid, hvoid⟩
  have hobject : d.symbol.IsObject := trivial
  obtain ⟨G', hready, -⟩ := h₁.ready.replace (fun _ => hobject) hfits
  have hs₂ := Typing.outcome_define hdefine
  obtain rfl : G = G' := h₁.ready.globals_eq h₁.not_isGlobal hready
  refine ⟨hglobal, by rw [hs₂]; exact hvalid, by rw [hs₂]; exact hvoid, d, ?_⟩
  obtain ⟨l₁, halloc⟩ := hbinds.allocated
  have hslot : slot < l'.temps := by
    rw [hbinds.temps, hbinds.new]
    exact Nat.lt_succ_self _
  refine h₁.declare (hs₂ ▸ hready) (List.Subset.refl _) ⟨.variable hn hcheck hdefine, ?_⟩
    hbinds.new.ge hslot ?_
  · have hprovides := Lowering.Provides.variable hm hresolved halloc
    rwa [hname] at hprovides
  · rw [hbinds.slots, h.slots, hname]
    cases Δ <;> rfl

/-- A whole variable, with its initializer. -/
theorem Follows.variable {y : Unit} (hn : Typing.Visits config u path (.vars (v :: vs)) s)
    (hm : Lowering.Visits r tree path (.vars c (v' :: vs')) l)
    (h : Follows config u r tree C G Δ s l) (hp : Passed (Typing.varDecl v) s v' x s')
    (hl : Lowering.localVar c v' l = .ok (y, l')) :
    ∃ G' d, Follows config u r tree (C.declare d.symbol) G' (Δ.declare d) s' l' := by
  obtain ⟨t, s₁, _, s₂, i, z, hcheck, hdefine, hinit, rfl⟩ := hp.variable
  obtain ⟨t', slot, l₁, hresolved, hbinds, hrest⟩ := Lowering.localVar_eq_ok hl
  obtain ⟨hglobal, hvalid, hvoid, d, hd⟩ := h.defines hn hm hcheck hdefine rfl hresolved hbinds
  rw [hglobal] at hinit
  cases hv : v.init with
  | none =>
    rw [hv, Typing.initializer?] at hinit
    obtain ⟨-, -, rfl⟩ := hinit.pure
    exact ⟨G, d, hd.lowered hrest⟩
  | some i₀ =>
    rw [hv] at hinit
    obtain ⟨i', hinit, -⟩ := hinit.initializer?
    obtain ⟨G', hd', -⟩ := hd.initializer hvalid hvoid hinit hrest
    exact ⟨G', d, hd'⟩

theorem Follows.vars {y : Unit} (hn : Typing.Visits config u path (.vars vs) s)
    (hm : Lowering.Visits r tree path (.vars c vs') l)
    (h : Follows config u r tree C G Δ s l) (hp : Passed (Typing.varDecls vs) s vs' x s')
    (hl : Lowering.varDecls c vs' l = .ok (y, l')) :
    ∃ C' G' Δ', Follows config u r tree C' G' Δ' s' l' := by
  induction vs generalizing path vs' C G Δ s l with
  | nil =>
    rw [Typing.varDecls] at hp
    obtain ⟨rfl, -, rfl⟩ := hp.pure
    rw [Lowering.varDecls] at hl
    obtain ⟨-, rfl⟩ := Lowering.pure_eq_ok.mp hl
    exact ⟨C, G, Δ, h⟩
  | cons v vs ih =>
    obtain ⟨w, _, s₁, ws, hw, hws, rfl⟩ := hp.moreVars
    rw [Lowering.varDecls] at hl
    obtain ⟨_, l₁, hfirst, hl⟩ := Lowering.bind_eq_ok.mp hl
    obtain ⟨G₁, d, h₁⟩ := h.variable hn hm hw hfirst
    exact ih (hn.enter (.moreVars hw.run)) (hm.enter (.moreVars hfirst)) h₁ hws hl

/-- A declaration, whose variables are reached where they are. -/
theorem Follows.declaration {y : Unit} {D D' : Declaration}
    (hn : ∀ vs span, D = ⟨.vars vs, span⟩ → Typing.Visits config u path (.vars vs) s)
    (hm : ∀ vs span, D' = ⟨.vars vs, span⟩ → Lowering.Visits r tree path (.vars c vs) l)
    (h : Follows config u r tree C G Δ s l) (hp : Passed (Typing.declaration D) s D' x s')
    (hl : Lowering.declaration c D' l = .ok (y, l')) :
    ∃ C' G' Δ', Follows config u r tree C' G' Δ' s' l' := by
  obtain ⟨kind, span⟩ := D
  cases kind with
  | vars vs =>
    obtain ⟨vs', hvs, rfl⟩ := hp.vars
    rw [Lowering.declaration] at hl
    exact h.vars (hn vs span rfl) (hm vs' span rfl) hvs hl
  | struct spec =>
    obtain ⟨rfl, _, hcheck⟩ := hp.struct
    rw [Lowering.declaration] at hl
    obtain ⟨-, rfl⟩ := Lowering.pure_eq_ok.mp hl
    obtain ⟨h', -, -⟩ :=
      h.check (Typing.checks_checkStructDecl (K := fun _ => True) spec) (fun _ _ => trivial) hcheck
    exact ⟨C, G, Δ, h'⟩

theorem Follows.item {y : Unit} {recover : Bool} {i i' : BlockItem} {is is' : List BlockItem}
    (hn : Typing.Visits config u path (.items recover (i :: is)) s)
    (hm : Lowering.Visits r tree path (.items c (i' :: is')) l)
    (h : Follows config u r tree C G Δ s l) (hp : Passed (Typing.blockItem i) s i' x s')
    (hl : Lowering.blockItem c i' l = .ok (y, l')) :
    ∃ C' G' Δ', Follows config u r tree C' G' Δ' s' l' := by
  cases i with
  | statement st =>
    obtain ⟨st', hst, rfl⟩ := hp.statement
    rw [Lowering.blockItem] at hl
    obtain ⟨G', h'⟩ := h.stmt hst (Lowering.grows_stmt c st' _ _ _ hl)
    exact ⟨C, G', Δ, h'⟩
  | declaration D =>
    obtain ⟨D', hD, rfl⟩ := hp.declaration
    rw [Lowering.blockItem] at hl
    have hn' (vs : List VarDecl) (span : Span) (hvs : D = ⟨.vars vs, span⟩) :
        Typing.Visits config u (path ++ [0]) (.vars vs) s := by
      subst hvs
      exact hn.enter .declaration
    refine h.declaration hn' (fun vs span hvs => ?_) hD hl
    subst hvs
    exact hm.enter .declaration

/-- What comes before a loop, in its scope. -/
theorem Follows.loopInit {y : Unit} {span : Span} {kind : LoopKind} {first first' : Option LoopInit}
    {cond cond' update update' : Option Expr} {body body' : Stmt}
    (hn : Typing.Visits config u path (.stmt ⟨.loop kind first cond update body, span⟩) s)
    (hm : Lowering.Visits r tree path (.stmt c ⟨.loop kind first' cond' update' body', span⟩) l)
    (h : Follows config u r tree C G Δ s l)
    (hp : Passed (Typing.loopInit? first) { s with scope := s.scope.push } first' x s')
    (hl : Lowering.loopInit c first' { l with slots := [] :: l.slots } = .ok (y, l')) :
    ∃ C' G' Δ', Follows config u r tree C' G' Δ' s' l' := by
  cases first with
  | none =>
    rw [Typing.loopInit?] at hp
    obtain ⟨rfl, -, rfl⟩ := hp.pure
    rw [Lowering.loopInit] at hl
    obtain ⟨-, rfl⟩ := Lowering.pure_eq_ok.mp hl
    exact ⟨_, _, _, h.push⟩
  | some i =>
    cases i with
    | expr e =>
      obtain ⟨e', t, he, rfl⟩ := hp.firstClause
      rw [Lowering.loopInit] at hl
      have hgrows : Grows id (discard (Lowering.valueOf c.registry (Lowering.expr c e'))) :=
        (Lowering.grows_valueOf _ (Lowering.grows_expr c e')).map
      obtain ⟨G', h', -⟩ := h.push.expr he (hgrows _ _ _ hl)
      exact ⟨_, G', _, h'⟩
    | declaration D =>
      obtain ⟨D', w, hD, rfl⟩ := hp.firstDeclaration
      rw [Lowering.loopInit] at hl
      have hn' (vs : List VarDecl) (span : Span) (hvs : D = ⟨.vars vs, span⟩) :
          Typing.Visits config u (path ++ [0]) (.vars vs) { s with scope := s.scope.push } := by
        subst hvs
        exact hn.enter .firstDeclaration
      refine h.push.declaration hn' (fun vs span hvs => ?_) hD hl
      subst hvs
      exact hm.enter .firstDeclaration

end Declarations

end

end MiniC
