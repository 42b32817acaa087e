import MiniC.Proofs.Typing.Judged
import MiniC.Proofs.Typing.Units
/-!
What comes of the analysis of a whole unit. Main statement: an accepted unit makes sense in its own
registry, which is consistent and in which no object is void.
-/
namespace MiniC.Typing

open Syntax Check
open Registry (Grows)

section Functions

variable {K : Env → Prop}

theorem accepts_params (C : Site) (K : Env → Prop) (hasBody : Bool) : ∀ ps,
    Accepts C K (params hasBody ps) (fun _ => C) fun E qs ts =>
      (∀ q ∈ qs, IsParam E hasBody q) ∧ ∀ t ∈ ts, E.registry.Movable t
  | [] => by
    rw [params]
    exact .pure rfl fun _ _ _ => ⟨List.forall_mem_nil _, List.forall_mem_nil _⟩
  | p :: ps => by
    rw [params]
    refine .check (checks_checkParam hasBody p) (fun t => (accepts_params C _ hasBody ps).bind
      (fun qs ts => .pure rfl fun E _ hE => ?_) fun _ e => .still e fun _ => ⟨_, rfl⟩)
      fun e => .still e fun _ => ⟨_, rfl⟩
    obtain ⟨⟨-, hmovable, hname⟩, hqs, hts⟩ := hE
    exact ⟨List.forall_mem_cons.mpr ⟨⟨⟨t, rfl, hmovable⟩, hname⟩, hqs⟩,
      List.forall_mem_cons.mpr ⟨hmovable, hts⟩⟩

/-- Parameters enter the frame of a function in their order. -/
theorem advances_defineParams {ret : Option TypeId} {ps : List ParamDecl} (syms : List Symbol)
    (hps : ∀ E, E.Sound → K E → ∀ p ∈ ps, ∀ t ∈ p.resolved, E.registry.Movable t) :
    Advances ⟨[syms], 0, ret⟩ ⟨[ps.foldl addParam syms], 0, ret⟩ K (defineParams ps) := by
  induction ps generalizing syms with
  | nil => exact .pure ()
  | cons p ps ih =>
    have hrest := ih (addParam syms p) fun E hE hK q hq => hps E hE hK q (List.mem_cons_of_mem _ hq)
    rw [defineParams, List.foldl_cons]
    split
    · rename_i name t hname ht
      have hadd : addParam syms p = ⟨name, .parameter, t, p.span⟩ :: syms := by
        simp only [addParam, hname, ht]
      rw [hadd] at hrest ⊢
      have hdefine : Advances ⟨[syms], 0, ret⟩ ⟨[⟨name, .parameter, t, p.span⟩ :: syms], 0, ret⟩ K
          (define ⟨name, .parameter, t, p.span⟩) := by
        refine advances_define trivial fun E hE hK => ?_
        have hmovable := hps E hE hK p (List.mem_cons_self ..) t ht
        exact ⟨hmovable.valid, hmovable.not_isVoid⟩
      exact hdefine.bind fun _ => hrest
    · rename_i hopen
      have hadd : addParam syms p = syms := by
        unfold addParam
        split
        · exact (hopen _ _ ‹_› ‹_›).elim
        · rfl
      rwa [hadd] at hrest ⊢

/-- What goes on in a function, as far as its result is concerned. -/
theorem Accepts.returning {τ β : Type} {act : Analysis (τ × Verdict β)} {ret : TypeId}
    {P : Env → τ → β → Prop} (hret : ∀ E, E.Sound → K E → E.registry.Valid ret)
    (h : Accepts ⟨[], 0, some ret⟩ K act (fun _ => ⟨[], 0, some ret⟩) P) :
    Accepts Site.outermost K (do
      modify fun s => { s with returns := some ret }
      let a ← act
      modify fun s => { s with returns := none }
      return a) (fun _ => Site.outermost) P where
  errors s hs := h.errors { s with returns := some ret } hs
  holds s t b s' hrun herrors G hG hK := by
    obtain ⟨⟨⟨u, v⟩, s₁⟩, hact⟩ : ∃ y, act { s with returns := some ret } = y := ⟨_, rfl⟩
    replace hrun : ((act { s with returns := some ret }).1,
      { (act { s with returns := some ret }).2 with returns := none }) = ((t, .ok b), s') := hrun
    rw [hact] at hrun
    cases hrun
    have hin : Ready ⟨[], 0, some ret⟩ G { s with returns := some ret } :=
      { hG with
        returns := rfl
        result := fun t ht => by
          cases ht
          exact hret _ hG.sound (hK _ hG.now) }
    obtain ⟨G', hG', hlater, hP⟩ := h.holds hact herrors G hin hK
    exact ⟨G', { hG' with returns := rfl, result := nofun }, hlater, hP⟩

theorem accepts_functionBody {ret : TypeId} {ps : List ParamDecl} (body : Block)
    (hret : ∀ E, E.Sound → K E → E.registry.Valid ret)
    (hps : ∀ E, E.Sound → K E → ∀ p ∈ ps, ∀ t ∈ p.resolved, E.registry.Movable t) :
    Accepts Site.outermost K (functionBody ret ps body) (fun _ => Site.outermost) fun E b _ =>
      IsItems E ⟨[paramSymbols ps], 0, some ret⟩ b.items := by
  have hbody : Accepts ⟨[[]], 0, some ret⟩ K (do
      let defined ← outcome (defineParams ps)
      andThen defined body (block true body))
      (fun b => Site.afterItems ⟨[paramSymbols ps], 0, some ret⟩ b.items) fun E b _ =>
        IsItems E ⟨[paramSymbols ps], 0, some ret⟩ b.items :=
    .advance (advances_defineParams [] hps)
      (fun _ => accepts_block ⟨[paramSymbols ps], 0, some ret⟩ K true body)
      fun e => .still e fun _ => ⟨_, rfl⟩
  refine (Accepts.inScope (C := ⟨[], 0, some ret⟩) (fun b => ?_) hbody).returning hret
  exact Site.Encloses.afterItems (C := ⟨[], 0, some ret⟩) (D := ⟨[paramSymbols ps], 0, some ret⟩)
    ⟨⟨_, rfl⟩, rfl, rfl⟩ b.items

/-- A function enters the global frame. -/
theorem advances_declareFunction {name : String} {ret : TypeId} {sig : Signature} {span : Span}
    (hret : ∀ E, E.Sound → K E → E.registry.Valid ret ∧
      (E.registry.isVoid ret = true ∨ E.registry.isScalar ret = true))
    (hparams : ∀ E, E.Sound → K E → ∀ t ∈ sig.params, E.registry.Movable t) :
    Advances Site.outermost Site.outermost K (declareFunction name ret sig span) where
  errors s := by
    rw [outcome_declareFunction]
    split <;> rfl
  ready s u s' hrun G hG hK := by
    rw [outcome_declareFunction] at hrun
    split at hrun
    · rename_i merged hmerge
      cases hrun
      have hnow := hK _ hG.now
      have hfits : Symbol.Fits s.registry ⟨name, .function merged, ret, span⟩ :=
        ⟨(hret _ hG.sound hnow).1, (hret _ hG.sound hnow).2,
          (mergeSignature_eq_ok hmerge).1 ▸ hparams _ hG.sound hnow⟩
      obtain ⟨G', hG', hsub⟩ := hG.replace (fun h => absurd rfl h) hfits
      exact ⟨G', hG', hG'.sound, Grows.refl _, hsub⟩
    · cases hrun

theorem accepts_function (K : Env → Prop) (f : FuncDecl) :
    Accepts Site.outermost K (function f) (fun _ => Site.outermost) fun E f _ => IsFunction E f := by
  obtain ⟨name, returns, ps, variadic, body, span, resolved⟩ := f
  unfold function
  refine .check (checks_checkResult returns) (fun ret => (accepts_params _ _ body.isSome ps).bind
    (fun qs ts => .advance (advances_declareFunction (fun E _ hE => hE.1.2) fun E _ hE => hE.2.2) (fun _ => ?_)
      fun e => .still e fun _ => ⟨_, rfl⟩) fun _ e => .still e fun _ => ⟨_, rfl⟩)
    fun e => .still e fun _ => ⟨_, rfl⟩
  cases body with
  | none =>
    refine .pure rfl fun E _ hE => ⟨⟨ret, rfl, hE.1.2.2⟩, hE.2.1, nofun⟩
  | some body =>
    refine (accepts_functionBody body (fun E _ hE => hE.1.2.1) fun E _ hE p hp t ht => ?_).bind
      (fun body _ => .pure rfl fun E _ hE => ⟨⟨ret, rfl, hE.1.1.2.2⟩, hE.1.2.1, ?_⟩)
      fun _ e => .still e fun _ => ⟨_, rfl⟩
    · obtain ⟨⟨u, hu, hmovable⟩, -⟩ := hE.2.1 p hp
      obtain rfl : u = t := Option.some.inj (hu.symm.trans ht)
      exact hmovable
    · rintro b ⟨⟩
      exact hE.2

theorem accepts_topDecl (K : Env → Prop) : ∀ d,
    Accepts Site.outermost K (topDecl d) (fun _ => Site.outermost) fun E d _ => IsTopDecl E d
  | .declaration d => by
    have hsite (d : Declaration) : Site.outermost.afterDecl d = Site.outermost := by
      obtain ⟨kind, span⟩ := d
      cases kind with
      | vars vs =>
        have hvars (vs : List VarDecl) : Site.outermost.afterVars vs = Site.outermost := by
          induction vs with
          | nil => rfl
          | cons v vs ih => exact ih
        exact hvars vs
      | struct spec => rfl
    exact (accepts_declaration Site.outermost K d).bind
      (fun d _ => .pure (hsite d).symm fun E _ hE => hE.2) fun _ e => .still e fun _ => ⟨_, rfl⟩
  | .function f => (accepts_function K f).bind (fun f _ => .pure rfl fun E _ hE => hE.2)
      fun _ e => .still e fun _ => ⟨_, rfl⟩

end Functions

section Units

variable {s s' : State} {G : List Symbol}

/-- The step lemma is `accepts_topDecl`; what was judged before is judged in all later environments. -/
theorem judged_topDecls {ds ds' : List TopDecl} (h : topDecls ds s = (ds', s'))
    (herrors : s'.errors = #[]) (hG : Ready Site.outermost G s) :
    ∃ G', Ready Site.outermost G' s' ∧ Later (s.env G) (s'.env G') ∧
      ∀ E, Later (s'.env G') E → ∀ d ∈ ds', IsTopDecl E d := by
  induction ds generalizing s ds' G with
  | nil =>
    rw [topDecls] at h
    cases h
    exact ⟨G, hG, hG.now, fun _ _ => List.forall_mem_nil _⟩
  | cons d ds ih =>
    obtain ⟨⟨⟨d', v⟩, s₁⟩, hd⟩ : ∃ y, topDecl d s = y := ⟨_, rfl⟩
    rw [topDecls, run_bind hd] at h
    cases v with
    | error e =>
      obtain ⟨⟨ds'', s₂⟩, hds⟩ : ∃ y, topDecls ds { s₁ with errors := s₁.errors.push e } = y :=
        ⟨_, rfl⟩
      have hrecord : record e s₁ = ((), { s₁ with errors := s₁.errors.push e }) := rfl
      replace h := (run_bind hds _).symm.trans ((run_bind hrecord _).symm.trans h)
      cases h
      have hpush := (accepted_topDecls hds).1 herrors
      simp at hpush
    | ok u =>
      obtain ⟨⟨ds'', s₂⟩, hds⟩ : ∃ y, topDecls ds s₁ = y := ⟨_, rfl⟩
      replace h := (run_bind hds _).symm.trans h
      cases h
      obtain ⟨G₁, hG₁, hlater₁, hjudged⟩ := (accepts_topDecl (fun _ => True) d).holds hd
        ((accepted_topDecls hds).1 herrors) G hG fun _ _ => trivial
      obtain ⟨G₂, hG₂, hlater₂, hrest⟩ := ih hds hG₁
      exact ⟨G₂, hG₂, hlater₁.trans hlater₂, fun E hE =>
        List.forall_mem_cons.mpr ⟨hjudged E (hlater₂.trans hE), hrest E hE⟩⟩

theorem ready_initial (config : Layout.Config) :
    Ready Site.outermost [assertSymbol (Registry.initial config)] (State.initial config) where
  sound := ⟨Registry.consistent_initial config, Registry.solid_initial config⟩
  symbols := rfl
  objects := nofun
  fits frame hframe sym hsym := by
    obtain rfl := List.mem_singleton.mp hframe
    obtain rfl := List.mem_singleton.mp hsym
    have hc := Registry.consistent_initial config
    have hint : (Registry.initial config).isInteger Registry.cInt = true :=
      isInteger_int hc (by decide)
    have hscalar {t : TypeId} (ht : (Registry.initial config).isInteger t = true) :
        (Registry.initial config).isScalar t = true := by simp [Registry.isScalar, ht]
    refine ⟨Registry.valid_of_isInteger hint, .inr (hscalar hint), fun p hp => .inl (hscalar ?_)⟩
    obtain rfl : p = (Registry.initial config).cLong true := by simpa [assertSymbol] using hp
    exact hc.isInteger_cLong true
  tags frame hframe tag htag := by
    obtain rfl := List.mem_singleton.mp hframe
    cases htag
  specs id t ht := by simp [State.initial] at ht
  returns := rfl
  result := nofun
  loops := rfl

end Units

/-- An accepted unit makes sense. -/
theorem judged_of_analyze {config : Layout.Config} {u : CompilationUnit}
    (h : (analyze config u).errors = []) :
    ∃ G, Env.Sound ⟨(analyze config u).registry, G⟩ ∧
      IsUnit ⟨(analyze config u).registry, G⟩ (analyze config u).tree := by
  obtain ⟨ds, s, hrun, hanalyze⟩ := run_of_analyze config u
  rw [hanalyze] at h ⊢
  obtain ⟨G, hG, -, hjudged⟩ :=
    judged_topDecls hrun (Array.toList_eq_nil_iff.mp h) (ready_initial config)
  exact ⟨G, hG.sound, hjudged _ hG.now⟩

/-- Types are laid out as they were to be. -/
theorem config_of_analyze {config : Layout.Config} {u : CompilationUnit}
    (h : (analyze config u).errors = []) : (analyze config u).registry.config = config := by
  obtain ⟨ds, s, hrun, hanalyze⟩ := run_of_analyze config u
  rw [hanalyze] at h ⊢
  obtain ⟨G, -, hlater, -⟩ :=
    judged_topDecls hrun (Array.toList_eq_nil_iff.mp h) (ready_initial config)
  exact hlater.registry.config

end MiniC.Typing
