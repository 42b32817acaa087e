import MiniC.Proofs.Typing.Trees
/-!
The analysis of whole units. Main statement: an accepted unit is scoped, where the globals are those
that it declares and a call gives each definition of its name as many arguments as that names, or more
if the definition is variadic.
-/
namespace MiniC.Typing

open Code (Names)
open Syntax
open Check

/-- What a declaration at file scope adds to the global frame. -/
inductive Declares : TopDecl → List Symbol → List Symbol → Prop where
  | declaration {d G G'} : Gains (d.kind.declared.map (·.name)) G G' →
      Declares (.declaration d) G G'
  | function {f sym sig G G'} : sym.name = f.name → sym.kind = .function sig →
      sig.params.length = f.params.length → sig.variadic = f.variadic →
      (∀ old, G.find? (·.name == f.name) = some old → ∃ sig', old.kind = .function sig' ∧
        sig'.params = sig.params ∧ sig'.variadic = sig.variadic) →
      Gains [] (sym :: G) G' → Declares (.function f) G G'

theorem Declares.subset {d : TopDecl} {G G' : List Symbol} (h : Declares d G G') : G ⊆ G' := by
  cases h with
  | declaration hgains => exact hgains.old
  | function _ _ _ _ _ hgains => exact List.Subset.trans (List.subset_cons_self _ _) hgains.old

inductive DeclaresAll : List TopDecl → List Symbol → List Symbol → Prop where
  | nil {G} : DeclaresAll [] G G
  | cons {d ds G G' G''} : Declares d G G' → DeclaresAll ds G' G'' → DeclaresAll (d :: ds) G G''

theorem DeclaresAll.subset {ds : List TopDecl} {G G' : List Symbol} (h : DeclaresAll ds G G') :
    G ⊆ G' := by
  induction h with
  | nil => exact List.Subset.refl _
  | cons hd _ ih => exact List.Subset.trans hd.subset ih

/-! Functions. -/

section Functions

variable {s s' : State} {L : Locals} {G : List Symbol}

/-- The parameters of a function that is accepted: each has a type, and a name if there is a body. -/
structure Received (hasBody : Bool) (ps qs : List ParamDecl) (ts : List TypeId) : Prop where
  labels : qs.map (·.label) = ps.map (·.label)
  types : ts.length = qs.length
  resolved : ∀ p ∈ qs, p.resolved.isSome
  named : hasBody = true → ∀ p ∈ qs, p.name.isSome

theorem params_cons (hasBody : Bool) (p : ParamDecl) (ps : List ParamDecl) (s : State) :
    params hasBody (p :: ps) s =
      match outcome (checkParam hasBody p) s with
      | (.error e, s₁) => ((p :: ps, .error e), s₁)
      | (.ok t, s₁) =>
        match params hasBody ps s₁ with
        | ((qs, ts), s₂) => (({ p with resolved := some t } :: qs, ts.map (t :: ·)), s₂) := by
  obtain ⟨⟨v, s₁⟩, hv⟩ : ∃ y, outcome (checkParam hasBody p) s = y := ⟨_, rfl⟩
  rw [params, run_bind hv, hv]
  cases v <;> rfl

theorem same_params (hasBody : Bool) (ps : List ParamDecl) (s : State) :
    Same s (params hasBody ps s).2 := by
  induction ps generalizing s with
  | nil =>
    rw [params]
    exact Same.refl s
  | cons p ps ih =>
    rw [params_cons]
    have hp := quiet_checkParam hasBody p s
    obtain ⟨⟨v, s₁⟩, hv⟩ : ∃ y, outcome (checkParam hasBody p) s = y := ⟨_, rfl⟩
    rw [hv] at hp ⊢
    cases v with
    | error e => exact hp
    | ok t => exact hp.trans (ih s₁)

theorem name_of_checkParam {hasBody : Bool} {p : ParamDecl} {t : TypeId}
    (h : outcome (checkParam hasBody p) s = (.ok t, s')) (hbody : hasBody = true) :
    p.name.isSome := by
  cases hname : p.name with
  | some name => rfl
  | none =>
    rw [checkParam, outcome_bind] at h
    obtain ⟨⟨v, s₁⟩, hv⟩ : ∃ y, outcome (resolveParam p.ty) s = y := ⟨_, rfl⟩
    rw [hv] at h
    cases v with
    | error e => cases h
    | ok u =>
      rw [hbody, hname] at h
      by_cases hvoid : s₁.registry.isVoid u
      · replace h : outcome (if s₁.registry.isVoid u then _ else _) s₁ = _ := h
        rw [if_pos hvoid] at h
        cases h
      · replace h : outcome (if s₁.registry.isVoid u then _ else _) s₁ = _ := h
        rw [if_neg hvoid] at h
        cases h

theorem received_params {hasBody : Bool} {ps qs : List ParamDecl} {ts : List TypeId}
    (h : params hasBody ps s = ((qs, .ok ts), s')) : Received hasBody ps qs ts := by
  induction ps generalizing s qs ts with
  | nil =>
    rw [params] at h
    cases h
    exact ⟨rfl, rfl, nofun, fun _ => nofun⟩
  | cons p ps ih =>
    rw [params_cons] at h
    obtain ⟨⟨v, s₁⟩, hv⟩ : ∃ y, outcome (checkParam hasBody p) s = y := ⟨_, rfl⟩
    rw [hv] at h
    cases v with
    | error e => cases h
    | ok t =>
      obtain ⟨⟨⟨qs', ts'⟩, s₂⟩, hrest⟩ : ∃ y, params hasBody ps s₁ = y := ⟨_, rfl⟩
      simp only [hrest] at h
      cases ts' with
      | error e => cases h
      | ok ts' =>
        cases h
        have hreceived := ih hrest
        refine ⟨congrArg (p.label :: ·) hreceived.labels, congrArg (· + 1) hreceived.types, ?_, ?_⟩
        · intro q hq
          rcases List.mem_cons.mp hq with rfl | hq
          · rfl
          · exact hreceived.resolved q hq
        · intro hbody q hq
          rcases List.mem_cons.mp hq with rfl | hq
          · exact name_of_checkParam hv hbody
          · exact hreceived.named hbody q hq

/-- The parameters are the first names of the function's scope. -/
theorem moves_defineParams (scope : List String) (ps : List ParamDecl)
    (hresolved : ∀ p ∈ ps, p.resolved.isSome) (hnamed : ∀ p ∈ ps, p.name.isSome) :
    Moves (scope :: L) ((ps.map (·.label)).foldl Locals.declare (scope :: L)) []
      (defineParams ps) := by
  induction ps generalizing scope with
  | nil => exact (Quiet.pure ()).moves
  | cons p ps ih =>
    obtain ⟨name, hname⟩ := Option.isSome_iff_exists.mp (hnamed p (List.mem_cons_self ..))
    obtain ⟨t, ht⟩ := Option.isSome_iff_exists.mp (hresolved p (List.mem_cons_self ..))
    have hrest := ih (p.label :: scope) (fun q hq => hresolved q (List.mem_cons_of_mem _ hq))
      fun q hq => hnamed q (List.mem_cons_of_mem _ hq)
    have hsym : Symbol.IsObject ⟨name, .parameter, t, p.span⟩ := trivial
    have hdefine : Moves (scope :: L) ((name :: scope) :: L) [] _ := moves_define hsym
    have hlabel : p.label = name := by simp [ParamDecl.label, hname]
    rw [hlabel] at hrest
    rw [defineParams, hname, ht, List.map_cons, List.foldl_cons, hlabel]
    exact hdefine.bind fun _ => hrest

theorem analyzes_functionBody (ret : TypeId) {ps : List ParamDecl} (body : Block)
    (hresolved : ∀ p ∈ ps, p.resolved.isSome) (hnamed : ∀ p ∈ ps, p.name.isSome) :
    Analyzes [] [] [] (functionBody ret ps body) fun N body' =>
      Scoped.blockItems N (Locals.ofNames (ps.map (·.label))) body'.items := by
  obtain ⟨scope, hscope⟩ := Locals.ofNames_cons (ps.map (·.label))
  obtain ⟨scope', hscope'⟩ := BlockItem.localsAfter_cons scope [] body.items
  have hbody := analyzes_block scope [] true body
  rw [hscope'] at hbody
  have hparams := moves_defineParams (L := []) [] ps hresolved hnamed
  rw [hscope]
  rw [show (ps.map (·.label)).foldl Locals.declare [[]] = scope :: [] from hscope] at hparams
  exact (Analyzes.defines hparams (fun _ => hbody) fun e => .still e fun _ => ⟨_, rfl⟩).inScope.around
    (fun _ => ⟨rfl, rfl⟩) fun _ => ⟨rfl, rfl⟩

theorem outcome_declareFunction (name : String) (ret : TypeId) (sig : Signature) (span : Span)
    (s : State) :
    outcome (declareFunction name ret sig span) s =
      match mergeSignature name ret sig span (s.scope.local? name) with
      | .ok sig => (.ok (), { s with scope := s.scope.replace ⟨name, .function sig, ret, span⟩ })
      | .error e => (.error e, s) := by
  unfold declareFunction
  show outcome (liftM (mergeSignature name ret sig span (s.scope.local? name)) >>= _) s = _
  rw [outcome_bind]
  cases mergeSignature name ret sig span (s.scope.local? name) <;> rfl

/-- A signature is merged only with one that takes the same. -/
theorem mergeSignature_eq_ok {name : String} {ret : TypeId} {sig sig' : Signature} {span : Span}
    {old : Option Symbol} (h : mergeSignature name ret sig span old = .ok sig') :
    sig'.params = sig.params ∧ sig'.variadic = sig.variadic ∧ ∀ sym, old = some sym →
      ∃ previous, sym.kind = .function previous ∧ previous.params = sig.params ∧
        previous.variadic = sig.variadic := by
  unfold mergeSignature at h
  split at h
  · cases h
    exact ⟨rfl, rfl, nofun⟩
  · rename_i previous previousRet _
    split at h
    · cases h
    · split at h
      · cases h
      · rename_i hcompatible
        split at h
        · cases h
        · cases h
          simp only [Signature.compatible, Bool.or_eq_true, bne_iff_ne, ne_eq, Bool.not_eq_true',
            Bool.and_eq_false_iff, beq_eq_false_iff_ne, not_or, not_not] at hcompatible
          refine ⟨rfl, rfl, ?_⟩
          rintro sym ⟨⟩
          exact ⟨previous, rfl, hcompatible.2⟩
  · cases h

/-- A symbol that is put into the global frame comes before the others. -/
theorem Stands.replace_global (h : Stands [] G s) (sym : Symbol) :
    Stands [] (sym :: G) { s with scope := s.scope.replace sym } ∧
      ∀ name, s.scope.local? name = G.find? (·.name == name) := by
  obtain ⟨frames, hsymbols, hnames, -⟩ := h
  obtain rfl := List.map_eq_nil_iff.mp hnames
  obtain ⟨hinner, houter⟩ := List.cons.inj hsymbols
  replace hinner : s.scope.inner.symbols = G := hinner
  refine ⟨⟨[], ?_, rfl, nofun⟩, fun name => ?_⟩
  · show (sym :: s.scope.inner.symbols) :: s.scope.outer.map (·.symbols) = _
    rw [hinner, houter]
    rfl
  · rw [← hinner]
    rfl

/-- What comes of a function. -/
structure Declared (f f' : FuncDecl) (G : List Symbol) (s' : State) : Prop where
  variadic : f'.variadic = f.variadic
  stands : ∃ G', Stands [] G' s' ∧ Declares (.function f') G G' ∧
    ∀ N, Covers N G' → Scoped.topDecl N (.function f')

theorem declared_function {f : FuncDecl} {f' : FuncDecl} {v : Verdict Unit}
    (h : function f s = ((f', v), s')) :
    (s'.errors = #[] → s.errors = #[]) ∧
      (v = .ok () → s'.errors = #[] → ∀ G, Stands [] G s → Declared f f' G s') := by
  obtain ⟨name, returns, ps, variadic, body, span, resolved⟩ := f
  have hresult := quiet_checkResult returns s
  obtain ⟨⟨v₁, s₁⟩, hv₁⟩ : ∃ y, outcome (checkResult returns) s = y := ⟨_, rfl⟩
  rw [function, run_bind hv₁] at h
  rw [hv₁] at hresult
  cases v₁ with
  | error e =>
    cases h
    exact ⟨fun herrors => hresult.errors ▸ herrors, nofun⟩
  | ok ret =>
    have hparams := same_params body.isSome ps s₁
    obtain ⟨⟨⟨qs, ts⟩, s₂⟩, hqs⟩ : ∃ y, params body.isSome ps s₁ = y := ⟨_, rfl⟩
    replace h := (run_bind hqs _).symm.trans h
    rw [hqs] at hparams
    have hsame : Same s s₂ := hresult.trans hparams
    cases ts with
    | error e =>
      cases h
      exact ⟨fun herrors => hsame.errors ▸ herrors, nofun⟩
    | ok ts =>
      have hdeclare := outcome_declareFunction name ret ⟨ts, variadic, body.isSome, false⟩ span s₂
      have hreceived := received_params hqs
      cases hmerge : mergeSignature name ret ⟨ts, variadic, body.isSome, false⟩ span
          (s₂.scope.local? name) with
      | error e =>
        rw [hmerge] at hdeclare
        replace h := (run_bind (x := outcome (declareFunction name ret _ span)) hdeclare _).symm.trans h
        cases h
        exact ⟨fun herrors => hsame.errors ▸ herrors, nofun⟩
      | ok sig =>
        obtain ⟨htypes, hvariadic, hold⟩ := mergeSignature_eq_ok hmerge
        rw [hmerge] at hdeclare
        replace h := (run_bind (x := outcome (declareFunction name ret _ span)) hdeclare _).symm.trans h
        have hlength : sig.params.length = qs.length :=
          (congrArg List.length htypes).trans hreceived.types
        have hdeclares {G G' : List Symbol} {f : FuncDecl} (hG : Stands [] G s) (hname : f.name = name)
            (hps : f.params = qs) (hv : f.variadic = variadic)
            (hgains : Gains [] (⟨name, .function sig, ret, span⟩ :: G) G') :
            Declares (.function f) G G' := by
          refine .function hname.symm rfl (hps ▸ hlength) (hvariadic.trans hv.symm) ?_ hgains
          intro old hfind
          rw [hname, ← ((hG.same hsame).replace_global default).2] at hfind
          obtain ⟨previous, hkind, hp, hv⟩ := hold old hfind
          exact ⟨previous, hkind, hp.trans htypes.symm, hv.trans hvariadic.symm⟩
        cases body with
        | none =>
          cases h
          refine ⟨fun herrors => hsame.errors ▸ herrors, fun _ _ G hG => ⟨rfl, ?_⟩⟩
          exact ⟨_, ((hG.same hsame).replace_global _).1, hdeclares hG rfl rfl rfl (.refl _),
            fun N _ => nofun⟩
        | some body =>
          have hbody := analyzes_functionBody ret body hreceived.resolved (hreceived.named rfl)
          obtain ⟨⟨⟨body', done⟩, s₄⟩, hrun⟩ : ∃ y, functionBody ret qs body
            { s₂ with scope := s₂.scope.replace ⟨name, .function sig, ret, span⟩ } = y := ⟨_, rfl⟩
          replace h := (run_bind hrun _).symm.trans h
          cases h
          have herrors := hbody.errors
            { s₂ with scope := s₂.scope.replace ⟨name, .function sig, ret, span⟩ }
          rw [hrun] at herrors
          refine ⟨fun h => hsame.errors ▸ herrors h, ?_⟩
          rintro rfl hnone G hG
          obtain ⟨G', hG', hgains, hscoped⟩ :=
            hbody.named hrun hnone _ ((hG.same hsame).replace_global _).1
          refine ⟨rfl, G', hG', hdeclares hG rfl rfl rfl hgains, fun N hN => ?_⟩
          rintro _ ⟨⟩
          exact hscoped { N with arity := qs.length } ⟨hN.objects, hN.functions⟩

end Functions

/-! Units. -/

section Units

variable {s s' : State} {G G' : List Symbol}

def variadic : TopDecl → Bool
  | .declaration _ => false
  | .function f => f.variadic

/-- What comes of the declarations of a file. -/
structure Accepted (ds ds' : List TopDecl) (G : List Symbol) (s' : State) : Prop where
  variadic : ds'.map variadic = ds.map variadic
  stands : ∃ G', Stands [] G' s' ∧ DeclaresAll ds' G G' ∧
    ∀ N, Covers N G' → ∀ d ∈ ds', Scoped.topDecl N d

theorem declared_topDecl {d d' : TopDecl} {v : Verdict Unit} (h : topDecl d s = ((d', v), s')) :
    (s'.errors = #[] → s.errors = #[]) ∧
      (v = .ok () → s'.errors = #[] → ∀ G, Stands [] G s → variadic d' = variadic d ∧
        ∃ G', Stands [] G' s' ∧ Declares d' G G' ∧ ∀ N, Covers N G' → Scoped.topDecl N d') := by
  cases d with
  | declaration d =>
    have hd := analyzes_declaration [] d
    obtain ⟨⟨⟨e, w⟩, s₁⟩, hrun⟩ : ∃ y, declaration d s = y := ⟨_, rfl⟩
    replace h := (run_bind hrun _).symm.trans h
    cases h
    refine ⟨fun herrors => hd.errors s (by rw [hrun]; exact herrors), ?_⟩
    rintro rfl herrors G hG
    obtain ⟨G', hG', hgains, hP⟩ := hd.named hrun herrors G hG
    rw [d.locals_nil] at hG'
    have hany : Covers ⟨fun _ => True, fun _ _ => True, 0⟩ G' :=
      ⟨fun _ _ _ => trivial, fun _ _ _ _ _ _ => trivial⟩
    have hnames := (hP _ hany).2.2
    refine ⟨rfl, G', hG', .declaration ?_, fun N _ => trivial⟩
    rw [hnames]
    exact hgains
  | function f =>
    obtain ⟨⟨⟨f', w⟩, s₁⟩, hrun⟩ : ∃ y, function f s = y := ⟨_, rfl⟩
    replace h := (run_bind hrun _).symm.trans h
    cases h
    obtain ⟨herrors, hdeclared⟩ := declared_function hrun
    refine ⟨herrors, fun hv hnone G hG => ?_⟩
    obtain ⟨hvariadic, hstands⟩ := hdeclared hv hnone G hG
    exact ⟨hvariadic, hstands⟩

theorem accepted_topDecls {ds ds' : List TopDecl} (h : topDecls ds s = (ds', s')) :
    (s'.errors = #[] → s.errors = #[]) ∧
      (s'.errors = #[] → ∀ G, Stands [] G s → Accepted ds ds' G s') := by
  induction ds generalizing s ds' with
  | nil =>
    rw [topDecls] at h
    cases h
    exact ⟨id, fun _ G hG => ⟨rfl, G, hG, .nil, fun _ _ => nofun⟩⟩
  | cons d ds ih =>
    obtain ⟨⟨⟨d', v⟩, s₁⟩, hd⟩ : ∃ y, topDecl d s = y := ⟨_, rfl⟩
    rw [topDecls, run_bind hd] at h
    obtain ⟨herrors₁, hdeclared⟩ := declared_topDecl hd
    cases v with
    | error e =>
      obtain ⟨⟨ds'', s₂⟩, hds⟩ : ∃ y, topDecls ds { s₁ with errors := s₁.errors.push e } = y :=
        ⟨_, rfl⟩
      have hrecord : record e s₁ = ((), { s₁ with errors := s₁.errors.push e }) := rfl
      replace h := (run_bind hds _).symm.trans ((run_bind hrecord _).symm.trans h)
      cases h
      have hnone (herrors : s'.errors = #[]) : False := by
        have hpush := (ih hds).1 herrors
        simp at hpush
      exact ⟨fun herrors => (hnone herrors).elim, fun herrors => (hnone herrors).elim⟩
    | ok u =>
      obtain ⟨⟨ds'', s₂⟩, hds⟩ : ∃ y, topDecls ds s₁ = y := ⟨_, rfl⟩
      replace h := (run_bind hds _).symm.trans h
      cases h
      obtain ⟨herrors₂, haccepted⟩ := ih hds
      refine ⟨fun herrors => herrors₁ (herrors₂ herrors), fun herrors G hG => ?_⟩
      obtain ⟨hvariadic, G₁, hG₁, hdeclares, hscoped⟩ := hdeclared rfl (herrors₂ herrors) G hG
      obtain ⟨hvariadics, G₂, hG₂, hall, hscopeds⟩ := haccepted herrors G₁ hG₁
      refine ⟨congrArg₂ (· :: ·) hvariadic hvariadics, G₂, hG₂, .cons hdeclares hall, ?_⟩
      intro N hN d hd
      rcases List.mem_cons.mp hd with rfl | hd
      · exact hscoped N (hN.mono hall.subset)
      · exact hscopeds N hN d hd

/-! What the symbols of the global frame say of the declarations. -/

/-- The invariant of the global frame, after the declarations `ds`. -/
structure Matches (ds : List TopDecl) (G : List Symbol) : Prop where
  objects : ∀ sym ∈ G, sym.IsObject → sym.name ∈ ds.flatMap TopDecl.globals
  functions : ∀ f, .function f ∈ ds → ∃ sym ∈ G, ∃ sig, sym.name = f.name ∧
    sym.kind = .function sig ∧ sig.params.length = f.params.length ∧ sig.variadic = f.variadic
  /-- All symbols of one name that are functions take the same. -/
  coherent : ∀ sym ∈ G, ∀ sym' ∈ G, sym.name = sym'.name → ∀ sig sig',
    sym.kind = .function sig → sym'.kind = .function sig' →
      sig.params = sig'.params ∧ sig.variadic = sig'.variadic

theorem not_isObject {sym : Symbol} {sig : Signature} (h : sym.kind = .function sig) :
    ¬ sym.IsObject := by
  unfold Symbol.IsObject
  rw [h]
  exact id

/-- The step lemma: one more declaration. -/
theorem Matches.declares {ds : List TopDecl} {d : TopDecl} (h : Matches ds G)
    (hd : Declares d G G') : Matches (ds ++ [d]) G' := by
  cases hd with
  | @declaration d _ _ hgains =>
    have hold {sym : Symbol} {sig : Signature} (hsym : sym ∈ G') (hkind : sym.kind = .function sig) :
        sym ∈ G :=
      (hgains.new sym hsym).resolve_right fun hnew => not_isObject hkind hnew.1
    refine ⟨fun sym hsym hobject => ?_, fun f hf => ?_, ?_⟩
    · rw [List.flatMap_append]
      rcases hgains.new sym hsym with hsym | ⟨-, hname⟩
      · exact List.mem_append_left _ (h.objects sym hsym hobject)
      · refine List.mem_append_right _ ?_
        rw [List.flatMap_singleton]
        exact hname
    · have hmem : .function f ∈ ds := by simpa using hf
      obtain ⟨sym, hsym, hsig⟩ := h.functions f hmem
      exact ⟨sym, hgains.old hsym, hsig⟩
    · exact fun sym hsym sym' hsym' hname sig sig' hkind hkind' =>
        h.coherent sym (hold hsym hkind) sym' (hold hsym' hkind') hname sig sig' hkind hkind'
  | @function f new sig _ _ hname hkind hlength hvariadic hold hgains =>
    have hcases {sym : Symbol} (hsym : sym ∈ G') : sym = new ∨ sym ∈ G :=
      List.mem_cons.mp ((hgains.new sym hsym).resolve_right fun hnew => nomatch hnew.2)
    -- An older symbol of the same name takes the same as the one that was found.
    have hsame {sym : Symbol} {sig' : Signature} (hsym : sym ∈ G) (hsymName : sym.name = new.name)
        (hkind' : sym.kind = .function sig') :
        sig'.params = sig.params ∧ sig'.variadic = sig.variadic := by
      cases hfind : G.find? (·.name == f.name) with
      | none =>
        have hne := List.find?_eq_none.mp hfind sym hsym
        simp [hsymName, hname] at hne
      | some old =>
        obtain ⟨previous, hprevious, hparams, hsurplus⟩ := hold old hfind
        have holdName : old.name = f.name := by simpa using List.find?_some hfind
        have hcoherent := h.coherent sym hsym old (List.mem_of_find?_eq_some hfind)
          (hsymName.trans (hname.trans holdName.symm)) sig' previous hkind' hprevious
        exact ⟨hcoherent.1.trans hparams, hcoherent.2.trans hsurplus⟩
    refine ⟨fun sym hsym hobject => ?_, fun g hg => ?_, ?_⟩
    · rw [List.flatMap_append]
      rcases hcases hsym with rfl | hsym
      · exact absurd hobject (not_isObject hkind)
      · exact List.mem_append_left _ (h.objects sym hsym hobject)
    · rcases List.mem_append.mp hg with hg | hg
      · obtain ⟨sym, hsym, hsig⟩ := h.functions g hg
        exact ⟨sym, hgains.old (List.mem_cons_of_mem _ hsym), hsig⟩
      · obtain ⟨rfl⟩ := TopDecl.function.inj (List.mem_singleton.mp hg)
        exact ⟨new, hgains.old (List.mem_cons_self ..), sig, hname, hkind, hlength, hvariadic⟩
    · intro sym hsym sym' hsym' hnames sig₁ sig₂ hkind₁ hkind₂
      rcases hcases hsym with rfl | hsym
      · obtain rfl := SymbolKind.function.inj (hkind.symm.trans hkind₁)
        rcases hcases hsym' with rfl | hsym'
        · obtain rfl := SymbolKind.function.inj (hkind.symm.trans hkind₂)
          exact ⟨rfl, rfl⟩
        · exact (hsame hsym' hnames.symm hkind₂).imp Eq.symm Eq.symm
      · rcases hcases hsym' with rfl | hsym'
        · obtain rfl := SymbolKind.function.inj (hkind.symm.trans hkind₂)
          exact hsame hsym hnames hkind₁
        · exact h.coherent sym hsym sym' hsym' hnames sig₁ sig₂ hkind₁ hkind₂

theorem Matches.declaresAll {ds ds' : List TopDecl} (h : Matches ds G)
    (hds : DeclaresAll ds' G G') : Matches (ds ++ ds') G' := by
  induction hds generalizing ds with
  | nil => rwa [List.append_nil]
  | @cons d ds' G G₁ G' hd _ ih =>
    have hrest := ih (h.declares hd)
    rwa [List.append_assoc] at hrest

/-- What an accepted unit may name. A call gives all declarations of its name as many arguments as they
name, or more if they are variadic. -/
def namesOf (u : CompilationUnit) : Names where
  globals name := name ∈ u.decls.flatMap TopDecl.globals
  fits name n := (name = Machine.assertName → n = 2) ∧
    ∀ f, .function f ∈ u.decls → f.name = name →
      f.params.length ≤ n ∧ (f.variadic = false → n = f.params.length)
  arity := 0

theorem Matches.covers {u : CompilationUnit} {r : Registry} (h : Matches u.decls G)
    (hassert : assertSymbol r ∈ G) : Covers (namesOf u) G where
  objects := h.objects
  functions sym hsym sig hkind n htakes := by
    obtain ⟨hleast, hmost⟩ := htakes
    have hexact (hfixed : sig.variadic = false) : n = sig.params.length := by
      have hle := hmost.resolve_left (by simp [hfixed])
      omega
    constructor
    · intro hname
      obtain ⟨hparams, hsurplus⟩ := h.coherent sym hsym _ hassert hname sig _ hkind rfl
      rw [hexact hsurplus, hparams]
      rfl
    · intro f hf hname
      obtain ⟨sym', hsym', sig', hname', hkind', hlength, hvariadic⟩ := h.functions f hf
      obtain ⟨hparams, hsurplus⟩ :=
        h.coherent sym hsym sym' hsym' (hname.symm.trans hname'.symm) sig sig' hkind hkind'
      rw [← hlength, ← hparams, ← hvariadic, ← hsurplus]
      exact ⟨hleast, hexact⟩

theorem stands_initial (config : Layout.Config) :
    Stands [] [assertSymbol (Registry.initial config)] (State.initial config) :=
  ⟨[], rfl, rfl, nofun⟩

theorem matches_initial (config : Layout.Config) :
    Matches [] [assertSymbol (Registry.initial config)] where
  objects sym hsym hobject := by
    obtain rfl := List.mem_singleton.mp hsym
    exact absurd hobject (not_isObject rfl)
  functions := nofun
  coherent sym hsym sym' hsym' _ sig sig' hkind hkind' := by
    obtain rfl := List.mem_singleton.mp hsym
    obtain rfl := List.mem_singleton.mp hsym'
    rw [SymbolKind.function.inj (hkind.symm.trans hkind')]
    exact ⟨rfl, rfl⟩

end Units

/-- The analysis of a unit is that of its declarations, one after the other. -/
theorem run_of_analyze (config : Layout.Config) (u : CompilationUnit) :
    ∃ ds s, topDecls u.decls (State.initial config) = (ds, s) ∧
      analyze config u = ⟨⟨ds⟩, s.registry, s.errors.toList⟩ := by
  obtain ⟨⟨ds, s⟩, hrun⟩ : ∃ y, topDecls u.decls (State.initial config) = y := ⟨_, rfl⟩
  refine ⟨ds, s, hrun, ?_⟩
  unfold analyze
  rw [show (topDecls u.decls).run (State.initial config) = (ds, s) from hrun]

/-- An accepted unit is scoped. -/
theorem scoped_of_analyze {config : Layout.Config} {u : CompilationUnit}
    (h : (analyze config u).errors = []) :
    (analyze config u).tree.decls.map variadic = u.decls.map variadic ∧
      ∀ d ∈ (analyze config u).tree.decls, Scoped.topDecl (namesOf (analyze config u).tree) d := by
  obtain ⟨ds, s, hrun, hanalyze⟩ := run_of_analyze config u
  rw [hanalyze] at h ⊢
  obtain ⟨hvariadic, G, -, hdeclares, hscoped⟩ :=
    (accepted_topDecls hrun).2 (Array.toList_eq_nil_iff.mp h) _ (stands_initial config)
  have hmatches := (matches_initial config).declaresAll hdeclares
  exact ⟨hvariadic, hscoped _ (hmatches.covers (hdeclares.subset (List.mem_singleton.mpr rfl)))⟩

end MiniC.Typing
