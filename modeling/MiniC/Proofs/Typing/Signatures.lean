import MiniC.Proofs.Typing.Globals
/-!
The symbols of a file. Main statement: each variable in the global frame has the type that was resolved
for it, and all functions of one name take and give what each of their declarations says.
-/
namespace MiniC.Typing

open Syntax Check

/-- What the symbols of the global frame say of the declarations `ds`. -/
structure Signed (ds : List TopDecl) (G : List Symbol) : Prop where
  objects : ∀ sym ∈ G, sym.IsObject → ∃ d v, .declaration d ∈ ds ∧ v ∈ d.kind.declared ∧
    v.name = sym.name ∧ v.resolved = some sym.ty
  functions : ∀ f, .function f ∈ ds → ∃ sym ∈ G, ∃ sig, sym.name = f.name ∧
    sym.kind = .function sig ∧ f.params.map (·.resolved) = sig.params.map some ∧
      f.resolvedReturn = some sym.ty
  coherent : ∀ sym ∈ G, ∀ sym' ∈ G, sym.name = sym'.name → ∀ sig sig',
    sym.kind = .function sig → sym'.kind = .function sig' →
      sig.params = sig'.params ∧ sym.ty = sym'.ty

section Functions

variable {s s' : State} {G : List Symbol} {u : Unit}

theorem resolved_params {hasBody : Bool} {ps qs : List ParamDecl} {ts : List TypeId}
    (h : params hasBody ps s = ((qs, .ok ts), s')) : qs.map (·.resolved) = ts.map some := by
  induction ps generalizing s qs ts with
  | nil =>
    rw [params] at h
    cases h
    rfl
  | cons p ps ih =>
    rw [params_cons] at h
    obtain ⟨⟨v, s₁⟩, hv⟩ : ∃ y, outcome (checkParam hasBody p) s = y := ⟨_, rfl⟩
    rw [hv] at h
    cases v with
    | error e => cases h
    | ok t =>
      obtain ⟨⟨⟨qs', ts'⟩, s₂⟩, hrest⟩ : ∃ y, params hasBody ps s₁ = y := ⟨_, rfl⟩
      simp only [hrest] at h
      cases ts' with
      | error e => cases h
      | ok ts' =>
        cases h
        exact congrArg (some t :: ·) (ih hrest)

theorem ret_of_mergeSignature {name : String} {ret : TypeId} {sig sig' : Signature} {span : Span}
    {sym : Symbol} (h : mergeSignature name ret sig span (some sym) = .ok sig') : sym.ty = ret := by
  obtain ⟨name', kind, ty, span'⟩ := sym
  cases kind with
  | function previous =>
    unfold mergeSignature at h
    simp only at h
    split at h
    · cases h
    · split at h
      · cases h
      · rename_i hcompatible
        simp only [Bool.or_eq_true, bne_iff_ne, ne_eq, not_or, not_not] at hcompatible
        exact hcompatible.1
  | _ => cases h

/-- A function is declared before its body, if it has one, is analyzed. -/
theorem Passed.declared {f g : FuncDecl} (h : Passed (Typing.function f) s g u s') :
    ∃ ret s₁ ps ts s₂ s₃, outcome (checkResult f.returns) s = (.ok ret, s₁) ∧
      params f.body.isSome f.params s₁ = ((ps, .ok ts), s₂) ∧
      outcome (declareFunction f.name ret ⟨ts, f.variadic, f.isDefinition, false⟩ f.span) s₂ =
        (.ok (), s₃) ∧
      g.name = f.name ∧ g.params = ps ∧ g.resolvedReturn = some ret ∧
      (s' = s₃ ∨ ∃ body b, f.body = some body ∧
        Passed (Typing.functionBody ret ps body) s₃ b u s') := by
  obtain ⟨name, returns, qs, variadic, body, span, resolved⟩ := f
  unfold Typing.function at h
  cases body with
  | none =>
    obtain ⟨ret, s₁, hret, h⟩ := h.check fun e => .still e fun _ => ⟨_, rfl⟩
    obtain ⟨ps, ts, s₂, hps, h⟩ := h.follow fun _ e => .still e fun _ => ⟨_, rfl⟩
    obtain ⟨w, s₃, hw, h⟩ := h.check fun e => .still e fun _ => ⟨_, rfl⟩
    cases w
    obtain ⟨rfl, -, rfl⟩ := h.pure
    exact ⟨ret, s₁, ps, ts, s₂, _, hret, hps, hw, rfl, rfl, rfl, .inl rfl⟩
  | some body =>
    obtain ⟨ret, s₁, hret, h⟩ := h.check fun e => .still e fun _ => ⟨_, rfl⟩
    obtain ⟨ps, ts, s₂, hps, h⟩ := h.follow fun _ e => .still e fun _ => ⟨_, rfl⟩
    obtain ⟨w, s₃, hw, h⟩ := h.check fun e => .still e fun _ => ⟨_, rfl⟩
    cases w
    obtain ⟨b, y, s₄, hb, h⟩ := h.split (fun _ _ => .pure _) fun _ e => .still e fun _ => ⟨_, rfl⟩
    obtain ⟨rfl, rfl, rfl⟩ := h.pure
    exact ⟨ret, s₁, ps, ts, s₂, s₃, hret, hps, hw, rfl, rfl, rfl, .inr ⟨body, b, rfl, hb⟩⟩

/-- What a function adds to the global frame. -/
structure Announces (f : FuncDecl) (sym : Symbol) (G G' : List Symbol) : Prop where
  name : sym.name = f.name
  kind : ∃ sig, sym.kind = .function sig ∧ f.params.map (·.resolved) = sig.params.map some ∧
    ∀ old, G.find? (·.name == f.name) = some old → old.ty = sym.ty ∧
      ∃ previous, old.kind = .function previous ∧ previous.params = sig.params
  returns : f.resolvedReturn = some sym.ty
  here : sym ∈ G'
  old : G ⊆ G'
  new : G' ⊆ sym :: G

theorem Passed.announces {f g : FuncDecl} (h : Passed (Typing.function f) s g u s')
    (hG : Ready Site.outermost G s) :
    ∃ sym G', Ready Site.outermost G' s' ∧ Announces g sym G G' := by
  obtain ⟨ret, s₁, ps, ts, s₂, s₃, hret, hps, hdeclare, hname, hparams, hreturns, hbody⟩ := h.declared
  have hsame : Same s s₁ := by
    have hquiet := quiet_checkResult f.returns s
    rwa [hret] at hquiet
  have hsame' : Same s₁ s₂ := by
    have hquiet := same_params f.body.isSome f.params s₁
    rwa [hps] at hquiet
  have herrors : s₂.errors = #[] :=
    (hsame'.errors.trans hsame.errors).trans ((declared_function h.run).1 h.errors)
  obtain ⟨hG₁, -, hresult⟩ := (checks_checkResult (K := fun _ => True) f.returns).holds hret G hG
    fun _ _ => trivial
  obtain ⟨G₂, hG₂, hlater, hreceived⟩ := (accepts_params _ (fun _ => True) _ f.params).holds hps
    herrors G hG₁ fun _ _ => trivial
  obtain rfl : G = G₂ :=
    List.singleton_inj.mp (hG₁.symbols.symm.trans (hsame'.symbols.symm.trans hG₂.symbols))
  rw [outcome_declareFunction] at hdeclare
  split at hdeclare
  · rename_i merged hmerge
    cases hdeclare
    obtain ⟨hmerged, -, hold⟩ := mergeSignature_eq_ok hmerge
    let sym : Symbol := ⟨f.name, .function merged, ret, f.span⟩
    have hfits : sym.Fits s₂.registry := by
      have hnow := hG₂.now
      refine ⟨(hresult _ (hlater.trans hnow)).1, (hresult _ (hlater.trans hnow)).2, ?_⟩
      exact hmerged ▸ (hreceived _ hnow).2
    obtain ⟨G₃, hG₃, -⟩ := hG₂.replace (fun hframes => absurd rfl hframes) hfits
    obtain rfl := hG₂.globals_replace hG₃
    have hlocal : s₂.scope.local? f.name = G.find? (·.name == f.name) :=
      congrArg (List.find? _) (List.cons.inj hG₂.symbols).1
    have hannounces {G' : List Symbol} (hhere : sym :: G ⊆ G') (hnew : G' ⊆ sym :: G) :
        Announces g sym G G' := by
      refine ⟨hname.symm, ⟨merged, rfl, ?_, fun old hfind => ?_⟩, hreturns, hhere (List.mem_cons_self ..),
        List.Subset.trans (List.subset_cons_self _ _) hhere, hnew⟩
      · rw [hparams, hmerged]
        exact resolved_params hps
      · rw [hname, ← hlocal] at hfind
        obtain ⟨previous, hkind, hprevious, -⟩ := hold old hfind
        rw [hfind] at hmerge
        exact ⟨ret_of_mergeSignature hmerge, previous, hkind, hprevious.trans hmerged.symm⟩
    rcases hbody with rfl | ⟨body, b, hsome, hbody⟩
    · exact ⟨sym, _, hG₃, hannounces (List.Subset.refl _) (List.Subset.refl _)⟩
    · have hnamed := received_params hps
      have hstep : Later (s₂.env G) (State.env { s₂ with scope := s₂.scope.replace sym } (sym :: G)) :=
        ⟨hG₃.sound, Registry.Grows.refl _, List.subset_cons_self _ _⟩
      have haccepts := accepts_functionBody body
        (fun E _ hE => (hresult E (hlater.trans (hstep.trans hE))).1) fun E _ hE p hp t ht => by
          obtain ⟨⟨t', ht', hmovable⟩, -⟩ := (hreceived E (hstep.trans hE)).1 p hp
          obtain rfl : t' = t := Option.some.inj (ht'.symm.trans ht)
          exact hmovable
      obtain ⟨G', hG', hnew, hlater', -⟩ := hG₃.after haccepts
        (analyzes_functionBody ret body hnamed.resolved (hnamed.named (by rw [hsome]; rfl)))
        (fun _ hE => hE) hbody
      exact ⟨sym, G', hG', hannounces hlater'.globals hnew⟩
  · cases hdeclare

end Functions

section Units

variable {s s' : State} {G G' : List Symbol} {ds : List TopDecl} {u : Unit}

theorem Signed.function {f : FuncDecl} {sym : Symbol} (h : Signed ds G)
    (hf : Announces f sym G G') : Signed (ds ++ [.function f]) G' := by
  obtain ⟨hname, ⟨sig, hkind, hparams, hfound⟩, hreturns, hhere, hold, hnew⟩ := hf
  -- An older function of the same name takes and gives the same as the one that was found.
  have hsame {old : Symbol} {sig' : Signature} (hmem : old ∈ G) (heq : old.name = sym.name)
      (hkind' : old.kind = .function sig') : sig'.params = sig.params ∧ old.ty = sym.ty := by
    cases hfind : G.find? (·.name == f.name) with
    | none =>
      have hne := List.find?_eq_none.mp hfind old hmem
      simp [heq, hname] at hne
    | some found =>
      obtain ⟨hty, previous, hprevious, hpreviousParams⟩ := hfound found hfind
      have hfoundName : found.name = f.name := by simpa using List.find?_some hfind
      obtain ⟨hparams', hty'⟩ := h.coherent old hmem found (List.mem_of_find?_eq_some hfind)
        (heq.trans (hname.trans hfoundName.symm)) sig' previous hkind' hprevious
      exact ⟨hparams'.trans hpreviousParams, hty'.trans hty⟩
  refine ⟨fun sym' hmem hobject => ?_, fun g hg => ?_, fun a ha b hb hnames sig₁ sig₂ h₁ h₂ => ?_⟩
  · rcases List.mem_cons.mp (hnew hmem) with rfl | hmem
    · exact absurd hobject (not_isObject hkind)
    · obtain ⟨d, v, hd, hv⟩ := h.objects sym' hmem hobject
      exact ⟨d, v, List.mem_append_left _ hd, hv⟩
  · rcases List.mem_append.mp hg with hg | hg
    · obtain ⟨sym', hmem, hsig⟩ := h.functions g hg
      exact ⟨sym', hold hmem, hsig⟩
    · obtain ⟨rfl⟩ := TopDecl.function.inj (List.mem_singleton.mp hg)
      exact ⟨sym, hhere, sig, hname, hkind, hparams, hreturns⟩
  · rcases List.mem_cons.mp (hnew ha) with rfl | ha
    · obtain rfl := SymbolKind.function.inj (hkind.symm.trans h₁)
      rcases List.mem_cons.mp (hnew hb) with rfl | hb
      · obtain rfl := SymbolKind.function.inj (hkind.symm.trans h₂)
        exact ⟨rfl, rfl⟩
      · obtain ⟨hparams', hty⟩ := hsame hb hnames.symm h₂
        exact ⟨hparams'.symm, hty.symm⟩
    · rcases List.mem_cons.mp (hnew hb) with rfl | hb
      · obtain rfl := SymbolKind.function.inj (hkind.symm.trans h₂)
        exact hsame ha hnames h₁
      · exact h.coherent a ha b hb hnames sig₁ sig₂ h₁ h₂

/-- A declaration of variables adds a symbol for each. -/
theorem Signed.declaration {d : Declaration} (h : Signed ds G) (hold : G ⊆ G')
    (hnew : ∀ sym ∈ G', sym ∈ G ∨ sym.IsObject ∧ ∃ v ∈ d.kind.declared, v.name = sym.name ∧
      v.resolved = some sym.ty) : Signed (ds ++ [.declaration d]) G' := by
  have hfunction {sym : Symbol} {sig : Signature} (hmem : sym ∈ G') (hkind : sym.kind = .function sig) :
      sym ∈ G :=
    (hnew sym hmem).resolve_right fun hobject => not_isObject hkind hobject.1
  refine ⟨fun sym hmem hobject => ?_, fun g hg => ?_, fun a ha b hb hnames sig₁ sig₂ h₁ h₂ => ?_⟩
  · rcases hnew sym hmem with hmem | ⟨-, v, hv, hname, hresolved⟩
    · obtain ⟨d', v, hd', hv⟩ := h.objects sym hmem hobject
      exact ⟨d', v, List.mem_append_left _ hd', hv⟩
    · exact ⟨d, v, List.mem_append_right _ (List.mem_singleton.mpr rfl), hv, hname, hresolved⟩
  · have hmem : .function g ∈ ds := by simpa using hg
    obtain ⟨sym, hsym, hsig⟩ := h.functions g hmem
    exact ⟨sym, hold hsym, hsig⟩
  · exact h.coherent a (hfunction ha h₁) b (hfunction hb h₂) hnames sig₁ sig₂ h₁ h₂

theorem Passed.globals_resolved {vs vs' : List VarDecl} (h : Passed (varDecls vs) s vs' u s')
    (hG : Ready Site.outermost G s) :
    ∃ G', Ready Site.outermost G' s' ∧ G ⊆ G' ∧ ∀ sym ∈ G', sym ∈ G ∨ sym.IsObject ∧
      ∃ v ∈ vs', v.name = sym.name ∧ v.resolved = some sym.ty := by
  induction vs generalizing vs' G s with
  | nil =>
    rw [varDecls] at h
    obtain ⟨rfl, -, rfl⟩ := h.pure
    exact ⟨G, hG, List.Subset.refl _, fun sym hsym => .inl hsym⟩
  | cons v vs ih =>
    obtain ⟨w, _, s₁, ws, hw, hws, rfl⟩ := h.moreVars
    obtain ⟨t, s₂, y, s₃, hcheck, hdefine, hname, G₁, hG₁, hnew, hadds⟩ := hw.global hG
    obtain ⟨t', s₂', _, _, _, _, hcheck', -, -, hw'⟩ := hw.variable
    cases hcheck'.symm.trans hcheck
    obtain ⟨G₂, hG₂, hold, hrest⟩ := ih hws hG₁
    refine ⟨G₂, hG₂, List.Subset.trans hadds.old hold, fun sym hsym => ?_⟩
    rcases hrest sym hsym with hsym | ⟨hobject, v', hv', hsame⟩
    · rcases List.mem_cons.mp (hnew hsym) with rfl | hsym
      · exact .inr ⟨trivial, w, List.mem_cons_self .., hname, by rw [hw']⟩
      · exact .inl hsym
    · exact .inr ⟨hobject, v', List.mem_cons_of_mem _ hv', hsame⟩

theorem Passed.signed {d d' : TopDecl} (h : Passed (topDecl d) s d' u s')
    (hG : Ready Site.outermost G s) (hsigned : Signed ds G) :
    ∃ G', Ready Site.outermost G' s' ∧ Signed (ds ++ [d']) G' := by
  cases d with
  | function f =>
    obtain ⟨g, hg, rfl⟩ := h.topFunction
    obtain ⟨sym, G', hG', hannounces⟩ := hg.announces hG
    exact ⟨G', hG', hsigned.function hannounces⟩
  | declaration D =>
    obtain ⟨D', hD, rfl⟩ := h.topDeclaration
    obtain ⟨kind, span⟩ := D
    cases kind with
    | vars vs =>
      obtain ⟨vs', hvs, rfl⟩ := hD.vars
      obtain ⟨G', hG', hold, hnew⟩ := hvs.globals_resolved hG
      exact ⟨G', hG', hsigned.declaration hold hnew⟩
    | struct spec =>
      obtain ⟨rfl, _, hcheck⟩ := hD.struct
      obtain ⟨hG', -, -⟩ := (checks_checkStructDecl (K := fun _ => True) spec).holds hcheck G hG
        fun _ _ => trivial
      exact ⟨G, hG', hsigned.declaration (List.Subset.refl _) fun sym hsym => .inl hsym⟩

/-- By induction on the declarations, with the global frame after each. -/
theorem signed_topDecls {ds' : List TopDecl} {before : List TopDecl} (h : topDecls ds s = (ds', s'))
    (herrors : s'.errors = #[]) (hG : Ready Site.outermost G s) (hsigned : Signed before G) :
    ∃ G', Ready Site.outermost G' s' ∧ Signed (before ++ ds') G' := by
  induction ds generalizing s ds' before G with
  | nil =>
    rw [topDecls] at h
    cases h
    exact ⟨G, hG, by rwa [List.append_nil]⟩
  | cons d ds ih =>
    obtain ⟨d', _, s₁, ds'', hd, hds, rfl⟩ := topDecls_eq h herrors
    obtain ⟨G₁, hG₁, hfirst⟩ := hd.signed hG hsigned
    obtain ⟨G₂, hG₂, hrest⟩ := ih hds hG₁ hfirst
    exact ⟨G₂, hG₂, by rwa [List.append_assoc] at hrest⟩

theorem signed_initial (config : Layout.Config) :
    Signed [] [assertSymbol (Registry.initial config)] where
  objects sym hsym hobject := by
    obtain rfl := List.mem_singleton.mp hsym
    exact absurd hobject (not_isObject rfl)
  functions := nofun
  coherent sym hsym sym' hsym' _ sig sig' hkind hkind' := by
    obtain rfl := List.mem_singleton.mp hsym
    obtain rfl := List.mem_singleton.mp hsym'
    exact ⟨congrArg Signature.params (SymbolKind.function.inj (hkind.symm.trans hkind')), rfl⟩

end Units

/-- In an accepted unit, the environment in which it makes sense says what was declared. -/
theorem signed_of_analyze {config : Layout.Config} {u : CompilationUnit}
    (h : (analyze config u).errors = []) :
    ∃ G, Env.Sound ⟨(analyze config u).registry, G⟩ ∧
      IsUnit ⟨(analyze config u).registry, G⟩ (analyze config u).tree ∧
      Signed (analyze config u).tree.decls G ∧
      ∀ sym ∈ G, sym.Fits (analyze config u).registry := by
  obtain ⟨ds, s, hrun, hanalyze⟩ := run_of_analyze config u
  rw [hanalyze] at h ⊢
  have herrors := Array.toList_eq_nil_iff.mp h
  obtain ⟨G, hG, -, hjudged⟩ := judged_topDecls hrun herrors (ready_initial config)
  obtain ⟨G', hG', hsigned⟩ := signed_topDecls hrun herrors (ready_initial config)
    (signed_initial config)
  obtain rfl : G = G' := List.singleton_inj.mp (hG.symbols.symm.trans hG'.symbols)
  refine ⟨G, hG.sound, hjudged _ hG.now, hsigned, fun sym hsym => ?_⟩
  have hframe : G ∈ s.scope.symbols := by
    rw [hG.symbols]
    exact List.mem_append_right _ (List.mem_singleton.mpr rfl)
  exact hG.fits G hframe sym hsym

/-- In that environment all declarations of a name take the same. -/
theorem matched_of_analyze {config : Layout.Config} {u : CompilationUnit}
    (h : (analyze config u).errors = []) :
    ∃ G, IsUnit ⟨(analyze config u).registry, G⟩ (analyze config u).tree ∧
      Matches (analyze config u).tree.decls G ∧ assertSymbol (Registry.initial config) ∈ G := by
  obtain ⟨ds, s, hrun, hanalyze⟩ := run_of_analyze config u
  rw [hanalyze] at h ⊢
  have herrors := Array.toList_eq_nil_iff.mp h
  obtain ⟨G, hG, -, hjudged⟩ := judged_topDecls hrun herrors (ready_initial config)
  obtain ⟨-, G', ⟨frames, hsymbols, hframes, -⟩, hdeclares, -⟩ :=
    (accepted_topDecls hrun).2 herrors _ (stands_initial config)
  obtain rfl := List.map_eq_nil_iff.mp hframes
  obtain rfl : G' = G := List.singleton_inj.mp (hsymbols.symm.trans hG.symbols)
  exact ⟨G', hjudged _ hG.now, (matches_initial config).declaresAll hdeclares,
    hdeclares.subset (List.mem_singleton.mpr rfl)⟩

end MiniC.Typing
