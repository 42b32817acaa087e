import MiniC.Proofs.Typing.Runs
/-!
The names of globals. A definition in the global frame succeeds only if the name is new there. Main
statement: no two globals of an accepted unit have one name.
-/
namespace MiniC.Typing

open Syntax

/-- The names are new in one frame, are different, and are all in the other. -/
structure Adds (names : List String) (G G' : List Symbol) : Prop where
  distinct : names.Nodup
  new : ∀ sym ∈ G, sym.name ∉ names
  there : ∀ name ∈ names, ∃ sym ∈ G', sym.name = name
  old : G ⊆ G'

theorem Adds.nil {G G' : List Symbol} (h : G ⊆ G') : Adds [] G G' :=
  ⟨List.nodup_nil, fun _ _ => List.not_mem_nil, List.forall_mem_nil _, h⟩

theorem Adds.append {names names' : List String} {G G' G'' : List Symbol} (h : Adds names G G')
    (k : Adds names' G' G'') : Adds (names ++ names') G G'' where
  distinct := by
    refine List.nodup_append.mpr ⟨h.distinct, k.distinct, fun name hname name' hname' heq => ?_⟩
    obtain ⟨sym, hsym, rfl⟩ := h.there name hname
    exact k.new sym hsym (heq ▸ hname')
  new sym hsym hmem := by
    rcases List.mem_append.mp hmem with hmem | hmem
    · exact h.new sym hsym hmem
    · exact k.new sym (h.old hsym) hmem
  there name hname := by
    rcases List.mem_append.mp hname with hname | hname
    · obtain ⟨sym, hsym, heq⟩ := h.there name hname
      exact ⟨sym, k.old hsym, heq⟩
    · exact k.there name hname
  old := List.Subset.trans h.old k.old

section

variable {C : Site} {G G' : List Symbol} {s s' : State} {x : Unit}

/-- What declares nothing here leaves the global frame as it is. -/
theorem Ready.after {τ β : Type} {act : Analysis (τ × Verdict β)} {C' : τ → Site}
    {K : Env → Prop} {P : Env → τ → β → Prop} {L : Locals} {Q : Code.Names → τ → Prop} {t : τ} {b : β}
    (hG : Ready C G s) (ha : Accepts C K act C' P)
    (hn : Analyzes (C.frames.map (·.map (·.name))) L [] act Q) (hK : ∀ E, Later (s.env G) E → K E)
    (h : Passed act s t b s') :
    ∃ G', Ready (C' t) G' s' ∧ G' ⊆ G ∧ Later (s.env G) (s'.env G') ∧
      ∀ E, Later (s'.env G') E → P E t b := by
  obtain ⟨G', hG', hlater, hP⟩ := ha.holds h.run h.errors G hG hK
  obtain ⟨G'', ⟨frames, hsymbols, -, -⟩, hgains, -⟩ :=
    hn.named h.run h.errors G ⟨C.frames, hG.symbols, rfl, hG.objects⟩
  obtain rfl : G' = G'' :=
    List.singleton_inj.mp (List.append_inj' (hG'.symbols.symm.trans hsymbols) rfl).2
  refine ⟨G', hG', fun sym hsym => ?_, hlater, hP⟩
  rcases hgains.new sym hsym with hsym | ⟨-, hmem⟩
  · exact hsym
  · cases hmem

/-- A local leaves the global frame as it is. -/
theorem Ready.globals_eq {sym : Symbol} (h : Ready C G s) (hlocal : C.isGlobal = false)
    (h' : Ready (C.declare sym) G' { s with scope := s.scope.replace sym }) : G = G' := by
  have hbefore := h.symbols
  have hafter := h'.symbols
  obtain ⟨frames, loops, returns⟩ := C
  cases frames with
  | nil => cases hlocal
  | cons frame outer =>
    have houter := (List.cons.inj hbefore).2.symm.trans (List.cons.inj hafter).2
    exact List.singleton_inj.mp (List.append_inj' houter rfl).2

/-- Outside of functions, a symbol comes before those of the global frame. -/
theorem Ready.globals_replace {sym : Symbol} (h : Ready Site.outermost G s)
    (h' : Ready Site.outermost G' { s with scope := s.scope.replace sym }) : G' = sym :: G :=
  (List.cons.inj h'.symbols).1.symm.trans (congrArg (sym :: ·) (List.cons.inj h.symbols).1)

theorem new_of_define {sym : Symbol} (h : outcome (Check.define sym) s = (.ok x, s')) :
    s.scope.inner.symbol? sym.name = none := by
  rw [Check.define, outcome_enter, Scope.define] at h
  cases hsym : s.scope.inner.symbol? sym.name with
  | some old => rw [hsym] at h; cases h
  | none => rfl

/-- A global variable is the newest symbol, and the first of its name. -/
theorem Passed.global {v v' : VarDecl} (h : Passed (varDecl v) s v' x s')
    (hG : Ready Site.outermost G s) :
    ∃ t s₁ y s₂, outcome (checkVariable v) s = (.ok t, s₁) ∧
      outcome (Check.define ⟨v.name, .variable s₁.scope.isGlobal, t, v.span⟩) s₁ = (.ok y, s₂) ∧
      v'.name = v.name ∧ ∃ G', Ready Site.outermost G' s' ∧
        G' ⊆ ⟨v.name, .variable s₁.scope.isGlobal, t, v.span⟩ :: G ∧ Adds [v'.name] G G' := by
  obtain ⟨t, s₁, y, s₂, i, z, hcheck, hdefine, hinit, rfl⟩ := h.variable
  obtain ⟨hG₁, -, hQ⟩ := (checks_checkVariable (K := fun _ => True) v).holds hcheck G hG
    fun _ _ => trivial
  obtain ⟨hvalid, hvoid, -⟩ := hQ _ hG₁.now
  have hs₂ := outcome_define hdefine
  have hfits : Symbol.Fits s₁.registry ⟨v.name, .variable s₁.scope.isGlobal, t, v.span⟩ :=
    ⟨hvalid, hvoid⟩
  obtain ⟨G₂, hG₂, -⟩ := hG₁.replace (fun hframes => absurd rfl hframes) hfits
  obtain rfl := hG₁.globals_replace hG₂
  rw [← hs₂] at hG₂
  obtain ⟨G', hG', hsub, hlater, -⟩ := hG₂.after
    (accepts_initializer? _ (Later (s₂.env _)) t _ v.init hG₁.isGlobal_eq fun E _ hE => by
      have hgrows : Registry.Grows s₂.registry E.registry := hE.registry
      rw [hs₂] at hgrows
      exact ⟨hgrows.valid hvalid, (hgrows.isVoid_eq hvalid).trans hvoid⟩)
    (analyzes_initializer? _ t _ v.init) (fun _ hE => hE) hinit
  refine ⟨t, s₁, y, s₂, hcheck, hdefine, rfl, G', hG', hsub, List.nodup_singleton _, ?_, ?_, ?_⟩
  · intro sym hsym hmem
    have hinner : s₁.scope.inner.symbols = G := (List.cons.inj hG₁.symbols).1
    have hnew := List.find?_eq_none.mp (new_of_define hdefine) sym (hinner ▸ hsym)
    simp only [beq_iff_eq] at hnew
    exact hnew (List.mem_singleton.mp hmem)
  · exact List.forall_mem_singleton.mpr ⟨_, hlater.globals (List.mem_cons_self ..), rfl⟩
  · exact fun sym hsym => hlater.globals (List.mem_cons_of_mem _ hsym)

theorem Passed.globals {vs vs' : List VarDecl} (h : Passed (varDecls vs) s vs' x s')
    (hG : Ready Site.outermost G s) :
    ∃ G', Ready Site.outermost G' s' ∧ Adds (vs'.map (·.name)) G G' := by
  induction vs generalizing vs' G s with
  | nil =>
    rw [varDecls] at h
    obtain ⟨rfl, -, rfl⟩ := h.pure
    exact ⟨G, hG, .nil (List.Subset.refl _)⟩
  | cons v vs ih =>
    obtain ⟨w, _, s₁, ws, hw, hws, rfl⟩ := h.moreVars
    obtain ⟨-, -, -, -, -, -, -, G₁, hG₁, -, hfirst⟩ := hw.global hG
    obtain ⟨G₂, hG₂, hrest⟩ := ih hws hG₁
    exact ⟨G₂, hG₂, hfirst.append hrest⟩

/-- A function leaves its symbol, and no variable. -/
theorem Passed.topFunction_globals {f : FuncDecl} {d : TopDecl}
    (h : Passed (topDecl (.function f)) s d x s') (hG : Ready Site.outermost G s) :
    ∃ sym sig, sym.kind = .function sig ∧ ∃ G', Ready Site.outermost G' s' ∧
      (∀ sym' ∈ G', sym' ∈ sym :: G) ∧ Adds d.globals G G' := by
  obtain ⟨G', hG', hlater, -⟩ := (accepts_topDecl (fun _ => True) _).holds h.run h.errors G hG
    fun _ _ => trivial
  obtain ⟨-, G'', ⟨frames, hsymbols, hframes, -⟩, hdeclares, -⟩ :=
    (declared_topDecl h.run).2 rfl h.errors G ⟨[], hG.symbols, rfl, List.forall_mem_nil _⟩
  obtain rfl := List.map_eq_nil_iff.mp hframes
  obtain rfl : G' = G'' := List.singleton_inj.mp (hG'.symbols.symm.trans hsymbols)
  obtain ⟨g, -, rfl⟩ := h.topFunction
  cases hdeclares with
  | function hname hkind hlength hvariadic hold hgains =>
    refine ⟨_, _, hkind, G', hG', fun sym hsym => ?_, .nil hlater.globals⟩
    exact (hgains.new sym hsym).resolve_right fun hnew => by cases hnew.2

theorem Passed.topDecl_globals {d d' : TopDecl} (h : Passed (topDecl d) s d' x s')
    (hG : Ready Site.outermost G s) :
    ∃ G', Ready Site.outermost G' s' ∧ Adds d'.globals G G' := by
  cases d with
  | function f =>
    obtain ⟨-, -, -, G', hG', -, hadds⟩ := h.topFunction_globals hG
    exact ⟨G', hG', hadds⟩
  | declaration D =>
    obtain ⟨D', hD, rfl⟩ := h.topDeclaration
    obtain ⟨kind, span⟩ := D
    cases kind with
    | vars vs =>
      obtain ⟨vs', hvs, rfl⟩ := hD.vars
      exact hvs.globals hG
    | struct spec =>
      obtain ⟨rfl, _, hcheck⟩ := hD.struct
      obtain ⟨hG', -, -⟩ := (checks_checkStructDecl (K := fun _ => True) spec).holds hcheck G hG
        fun _ _ => trivial
      exact ⟨G, hG', .nil (List.Subset.refl _)⟩

theorem adds_topDecls {ds ds' : List TopDecl} (h : topDecls ds s = (ds', s'))
    (herrors : s'.errors = #[]) (hG : Ready Site.outermost G s) :
    ∃ G', Adds (ds'.flatMap TopDecl.globals) G G' := by
  induction ds generalizing s ds' G with
  | nil =>
    rw [topDecls] at h
    cases h
    exact ⟨G, .nil (List.Subset.refl _)⟩
  | cons d ds ih =>
    obtain ⟨d', _, s₁, ds'', hd, hds, rfl⟩ := topDecls_eq h herrors
    obtain ⟨G₁, hG₁, hfirst⟩ := hd.topDecl_globals hG
    obtain ⟨G₂, hrest⟩ := ih hds hG₁
    exact ⟨G₂, hfirst.append hrest⟩

end

/-- No two globals of an accepted unit have one name. -/
theorem nodup_globals_of_analyze {config : Layout.Config} {u : CompilationUnit}
    (h : (analyze config u).errors = []) :
    ((analyze config u).tree.decls.flatMap TopDecl.globals).Nodup := by
  obtain ⟨ds, s, hrun, hanalyze⟩ := run_of_analyze config u
  rw [hanalyze] at h ⊢
  obtain ⟨G, hadds⟩ := adds_topDecls hrun (Array.toList_eq_nil_iff.mp h) (ready_initial config)
  exact hadds.distinct

end MiniC.Typing
