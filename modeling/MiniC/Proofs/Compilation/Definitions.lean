import MiniC.Proofs.Compilation.Safety
import MiniC.Proofs.Compilation.Scopes
/-!
What stands at file scope. A global is made where its symbol is introduced, and each parameter has a
slot before the body begins. Main statements: past every declaration the globals are known, and a
body begins with the same parameters in scope on both sides.
-/
namespace MiniC

open Code (Temp)
open Syntax
open Typing (Passed Ready Site)
open Lowering (Extends Grows)

section

variable {config : Layout.Config} {u : CompilationUnit} {r : Registry} {tree : CompilationUnit}
  {C : Site} {G : List Symbol} {Δ : Entries} {s s' : Typing.State} {l l' : Lowering.State}
  {path : List Nat} {x : Unit}

/-! Globals. -/

theorem KnownGlobals.function {G' : List Symbol} {sym : Symbol} {sig : Signature}
    (h : KnownGlobals config u r tree G) (hkind : sym.kind = .function sig)
    (hG' : ∀ sym' ∈ G', sym' ∈ sym :: G) : KnownGlobals config u r tree G' := by
  intro sym' hsym' hobject
  rcases List.mem_cons.mp (hG' sym' hsym') with rfl | hsym'
  · exact absurd hobject (Typing.not_isObject hkind)
  · exact h sym' hsym' hobject

/-- One more global variable. -/
theorem KnownGlobals.variable {v v' : VarDecl} {vs vs' : List VarDecl}
    (hn : Typing.Visits config u path (.vars (v :: vs)) s)
    (hm : Lowering.Visits r tree path (.globals r (v' :: vs')) l)
    (hG : Ready Site.outermost G s) (h : KnownGlobals config u r tree G)
    (hp : Passed (Typing.varDecl v) s v' x s') :
    ∃ G', Ready Site.outermost G' s' ∧ KnownGlobals config u r tree G' := by
  obtain ⟨t, s₁, _, s₂, hcheck, hdefine, hname, G', hG', hsub, -⟩ := hp.global hG
  refine ⟨G', hG', fun sym hsym hobject => ?_⟩
  rcases List.mem_cons.mp (hsub hsym) with rfl | hsym
  · exact ⟨_, _, .variable hn hcheck hdefine, .variable hm, hname⟩
  · exact h sym hsym hobject

theorem KnownGlobals.vars {vs vs' : List VarDecl} {gs : List Code.Global}
    (hn : Typing.Visits config u path (.vars vs) s)
    (hm : Lowering.Visits r tree path (.globals r vs') l)
    (hG : Ready Site.outermost G s) (h : KnownGlobals config u r tree G)
    (hp : Passed (Typing.varDecls vs) s vs' x s') (hgs : vs'.mapM (Lowering.globalOf r) = .ok gs) :
    ∃ G', Ready Site.outermost G' s' ∧ KnownGlobals config u r tree G' := by
  induction vs generalizing path vs' gs G s with
  | nil =>
    rw [Typing.varDecls] at hp
    obtain ⟨-, -, rfl⟩ := hp.pure
    exact ⟨G, hG, h⟩
  | cons v vs ih =>
    obtain ⟨w, _, s₁, ws, hw, hws, rfl⟩ := hp.moreVars
    obtain ⟨G₁, hG₁, h₁⟩ := h.variable hn hm hG hw
    rw [List.mapM_cons] at hgs
    obtain ⟨g, hg, hgs⟩ := Machine.except_bind_eq_ok.mp hgs
    obtain ⟨gs', hgs', -⟩ := Machine.except_bind_eq_ok.mp hgs
    exact ih (hn.enter (.moreVars hw.run)) (hm.enter (.moreGlobals hg)) hG₁ h₁ hws hgs'

/-- Past a declaration. -/
theorem KnownGlobals.declaration {D : Declaration} {d : TopDecl} {ds ds' : List TopDecl}
    (hn : Typing.Visits config u path (.decls (.declaration D :: ds)) s)
    (hm : Lowering.Visits r tree path (.decls r (d :: ds')) l)
    (hG : Ready Site.outermost G s) (h : KnownGlobals config u r tree G)
    (hp : Passed (Typing.topDecl (.declaration D)) s d x s') :
    ∃ D', d = .declaration D' ∧ ∀ gs, Lowering.globals r D'.kind = .ok gs →
      ∃ G', Ready Site.outermost G' s' ∧ KnownGlobals config u r tree G' := by
  obtain ⟨D', hD, rfl⟩ := hp.topDeclaration
  refine ⟨D', rfl, fun gs hgs => ?_⟩
  obtain ⟨kind, span⟩ := D
  cases kind with
  | vars vs =>
    obtain ⟨vs', hvs, rfl⟩ := hD.vars
    exact h.vars (hn.enter .globals) (hm.enter .globals) hG hvs hgs
  | struct spec =>
    obtain ⟨-, _, hcheck⟩ := hD.struct
    obtain ⟨hG', -, -⟩ := (Typing.checks_checkStructDecl (K := fun _ => True) spec).holds hcheck G hG
      fun _ _ => trivial
    exact ⟨G, hG', h⟩

/-- Past a function. -/
theorem KnownGlobals.topFunction {f : FuncDecl} {d : TopDecl} (hG : Ready Site.outermost G s)
    (h : KnownGlobals config u r tree G) (hp : Passed (Typing.topDecl (.function f)) s d x s') :
    ∃ G', Ready Site.outermost G' s' ∧ KnownGlobals config u r tree G' := by
  obtain ⟨sym, sig, hkind, G', hG', hsub, -⟩ := hp.topFunction_globals hG
  exact ⟨G', hG', h.function hkind hsub⟩

/-! Parameters. -/

theorem Lowering.params_getElem? {ps : List ParamDecl} {qs : List Code.Param} {index : Nat}
    {p : ParamDecl} (h : params ps = .ok qs) (hp : ps[index]? = some p) :
    ∃ t, p.resolved = some t ∧ qs[index]? = some ⟨p.name.getD "", t⟩ := by
  induction ps generalizing qs index with
  | nil => cases hp
  | cons p₀ ps ih =>
    rw [params] at h
    cases hresolved : p₀.resolved with
    | none => rw [hresolved] at h; cases h
    | some t =>
      simp only [hresolved] at h
      obtain ⟨qs', hqs, h⟩ := Machine.except_bind_eq_ok.mp h
      cases h
      cases index with
      | zero =>
        obtain rfl := Option.some_inj.mp hp
        exact ⟨t, hresolved, rfl⟩
      | succ index =>
        obtain ⟨t', ht', hq⟩ := ih hqs hp
        exact ⟨t', ht', hq⟩

theorem Lowering.receiveAll_append (index : Nat) (ps qs : List Code.Param) :
    receiveAll r index (ps ++ qs) = (do
      receiveAll r index ps
      receiveAll r (index + ps.length) qs) := by
  induction ps generalizing index with
  | nil => rfl
  | cons p ps ih =>
    show (receive r index p >>= fun _ => receiveAll r (index + 1) (ps ++ qs)) =
      (receive r index p >>= fun _ => receiveAll r (index + 1) ps) >>= _
    rw [ih, bind_assoc, List.length_cons, Nat.add_right_comm, Nat.add_assoc]

/-- A parameter gets a slot, which is bound to its name in the end. -/
theorem Lowering.receive_eq_ok {index : Nat} {p : Code.Param} (h : receive r index p l = .ok (x, l')) :
    ∃ slot l₁, (do
        let _ ← define (.param · index)
        allocate r p.ty : Lower Temp) l = .ok (slot, l₁) ∧
      l.temps ≤ slot ∧ slot < l'.temps ∧ l'.slots = match l.slots with
        | [] => []
        | scope :: outer => ((p.name, slot) :: scope) :: outer := by
  obtain ⟨incoming, l₁, hincoming, h⟩ := bind_eq_ok.mp h
  obtain ⟨slot, l₂, halloc, h⟩ := bind_eq_ok.mp h
  have hdefine : Extends id l l₁ := Grows.define _ _ _ _ hincoming
  obtain ⟨rfl, htemps, hslots⟩ := allocate_eq_ok halloc
  obtain ⟨l₃, hwritten, hbind⟩ : ∃ l₃, Extends id l₂ l₃ ∧ bind p.name l₁.temps l₃ = .ok (x, l') := by
    by_cases hstruct : r.isStruct p.ty = true
    · simp only [hstruct, if_true] at h
      obtain ⟨_, l₃, hcopy, hbind⟩ := bind_eq_ok.mp h
      exact ⟨l₃, grows_copy _ _ _ _ _ _ hcopy, hbind⟩
    · simp only [hstruct] at h
      obtain ⟨_, l₃, hstore, hbind⟩ := bind_eq_ok.mp h
      exact ⟨l₃, grows_store _ _ _ _ _ _ hstore, hbind⟩
  cases hbind
  refine ⟨l₁.temps, l₂, bind_eq_ok.mpr ⟨incoming, l₁, hincoming, halloc⟩, hdefine.temps, ?_, ?_⟩
  · exact Nat.lt_of_lt_of_le (htemps ▸ Nat.lt_succ_self _) hwritten.temps
  · have hsame : l₃.slots = l.slots := hwritten.slots.trans (hslots.trans hdefine.slots)
    exact hsame ▸ rfl

/-- The parameters of a definition, where analysis and lowering have met it. -/
structure Parameters (config : Layout.Config) (u : CompilationUnit) (r : Registry)
    (tree : CompilationUnit) (path : List Nat) (ps : List ParamDecl) (qs : List Code.Param)
    (l : Lowering.State) : Prop where
  analyzed : ∃ f ds s ret s₁ ts s₂, Typing.Visits config u path (.decls (.function f :: ds)) s ∧
    Typing.outcome (Typing.checkResult f.returns) s = (.ok ret, s₁) ∧
    Typing.params f.body.isSome f.params s₁ = ((ps, .ok ts), s₂)
  lowered : ∃ g ds, Lowering.Visits r tree path (.decls r (.function g :: ds)) l ∧
    Lowering.params g.params = .ok qs
  params_eq : Lowering.params ps = .ok qs

/-- One more parameter. -/
theorem Parameters.follows {ps : List ParamDecl} {qs : List Code.Param} {l₀ : Lowering.State}
    {index : Nat} {p : ParamDecl} {name : String} {t : TypeId} {y z : Unit}
    (hparams : Parameters config u r tree path ps qs l₀) (hp : ps[index]? = some p)
    (hname : p.name = some name) (ht : p.resolved = some t)
    (hbefore : (do
      modify fun l => { l with code := #[], temps := 0, slots := [[]] }
      Lowering.receiveAll r 0 (qs.take index) : Lowering.Lower Unit) l₀ = .ok (x, l))
    (h : Follows config u r tree C G Δ s l) (hvalid : s.registry.Valid t)
    (hvoid : s.registry.isVoid t = false)
    (hdefine : Typing.outcome (Typing.Check.define ⟨name, .parameter, t, p.span⟩) s = (.ok y, s'))
    (hreceive : Lowering.receive r index ⟨name, t⟩ l = .ok (z, l')) :
    ∃ d : Entry, Follows config u r tree (C.declare d.symbol) G (Δ.declare d) s' l' := by
  obtain ⟨slot, l₁, hslot, hge, hlt, hslots⟩ := Lowering.receive_eq_ok hreceive
  let d : Entry := ⟨.parameter path index, ⟨name, .parameter, t, p.span⟩, slot⟩
  have hfits : d.symbol.Fits s.registry := ⟨hvalid, hvoid⟩
  have hobject : d.symbol.IsObject := trivial
  obtain ⟨G', hready, -⟩ := h.ready.replace (fun _ => hobject) hfits
  obtain rfl : G = G' := h.ready.globals_eq h.not_isGlobal hready
  have hs' := Typing.outcome_define hdefine
  obtain ⟨f, ds, s₀, ret, s₁, ts, s₂, hn, hresult, hps⟩ := hparams.analyzed
  obtain ⟨g, ds', hm, hqs⟩ := hparams.lowered
  obtain ⟨t', ht', hq⟩ := Lowering.params_getElem? hparams.params_eq hp
  obtain rfl := Option.some_inj.mp (ht.symm.trans ht')
  rw [hname] at hq
  have hintroduces : Typing.Introduces config u d.origin d.symbol :=
    .parameter hn hresult hps hp hname ht
  have hprovides : Lowering.Provides r tree d.origin d.symbol.name d.slot := by
    obtain ⟨_, l₂, hmodify, hall⟩ := Lowering.bind_eq_ok.mp hbefore
    exact .parameter hm hqs hq
      (Lowering.bind_eq_ok.mpr ⟨_, l₂, hmodify, Lowering.bind_eq_ok.mpr ⟨x, l, hall, hslot⟩⟩)
  refine ⟨d, h.declare (hs' ▸ hready) (List.Subset.refl _) ⟨hintroduces, hprovides⟩ hge hlt ?_⟩
  rw [hslots, h.slots]
  cases Δ <;> rfl

theorem Parameters.follows_all {ps : List ParamDecl} {qs : List Code.Param} {l₀ : Lowering.State}
    {before after : List ParamDecl} {y z : Unit}
    (hparams : Parameters config u r tree path ps qs l₀) (hps : ps = before ++ after)
    (hnamed : ∀ p ∈ after, p.name.isSome) (hresolved : ∀ p ∈ after, ∃ t, p.resolved = some t ∧
      s.registry.Valid t ∧ s.registry.isVoid t = false)
    (hbefore : (do
      modify fun l => { l with code := #[], temps := 0, slots := [[]] }
      Lowering.receiveAll r 0 (qs.take before.length) : Lowering.Lower Unit) l₀ = .ok (x, l))
    (h : Follows config u r tree C G Δ s l)
    (hdefine : Typing.outcome (Typing.defineParams after) s = (.ok y, s'))
    (hreceive : Lowering.receiveAll r before.length (qs.drop before.length) l = .ok (z, l')) :
    ∃ C' Δ', Follows config u r tree C' G Δ' s' l' := by
  induction after generalizing before C Δ s l with
  | nil =>
    have hlength : qs.length ≤ before.length := by
      have hnames := congrArg List.length (Lowering.params_eq_ok hparams.params_eq)
      simp only [List.length_map, hps, List.append_nil] at hnames
      exact hnames.le
    rw [List.drop_eq_nil_iff.mpr hlength] at hreceive
    obtain ⟨-, rfl⟩ := Lowering.pure_eq_ok.mp hreceive
    cases hdefine
    exact ⟨C, Δ, h⟩
  | cons p after ih =>
    obtain ⟨hname, hnamed⟩ := List.forall_mem_cons.mp hnamed
    obtain ⟨⟨t, ht, hvalid, hvoid⟩, hresolved⟩ := List.forall_mem_cons.mp hresolved
    obtain ⟨name, hname⟩ := Option.isSome_iff_exists.mp hname
    have hp : ps[before.length]? = some p := by simp [hps]
    obtain ⟨t', ht', hq⟩ := Lowering.params_getElem? hparams.params_eq hp
    obtain rfl := Option.some_inj.mp (ht.symm.trans ht')
    rw [hname] at hq
    rw [Typing.defineParams, hname, ht] at hdefine
    obtain ⟨_, s₁, hfirst, hdefine⟩ := Typing.outcome_bind_eq_ok hdefine
    obtain ⟨hlt, hqat⟩ := List.getElem?_eq_some_iff.mp hq
    rw [List.drop_eq_getElem_cons hlt, hqat] at hreceive
    obtain ⟨_, l₁, hone, hreceive⟩ := Lowering.bind_eq_ok.mp hreceive
    obtain ⟨d, h₁⟩ := hparams.follows hp hname ht hbefore h hvalid hvoid hfirst hone
    have hs₁ := Typing.outcome_define hfirst
    have htake : qs.take (before.length + 1) = qs.take before.length ++ [⟨name, t⟩] := by
      rw [List.take_add_one, hq]
      rfl
    have hsplit : ps = (before ++ [p]) ++ after := by simp [hps]
    refine ih hsplit hnamed (by rw [hs₁]; exact hresolved) ?_ h₁ hdefine
      (by rw [List.length_append]; exact hreceive)
    obtain ⟨_, l₂, hmodify, hall⟩ := Lowering.bind_eq_ok.mp hbefore
    refine Lowering.bind_eq_ok.mpr ⟨_, l₂, hmodify, ?_⟩
    rw [List.length_append, List.length_singleton, htake, Lowering.receiveAll_append]
    refine Lowering.bind_eq_ok.mpr ⟨_, l, hall, ?_⟩
    have hlength : 0 + (qs.take before.length).length = before.length := by
      rw [Nat.zero_add, List.length_take]
      exact Nat.min_eq_left hlt.le
    rw [hlength]
    exact Lowering.bind_eq_ok.mpr ⟨_, l₁, hone, rfl⟩

/-- On the way into a function. -/
theorem Typing.Ready.enterFunction {ret : TypeId} (h : Ready Site.outermost G s)
    (hret : s.registry.Valid ret) :
    Ready ⟨[[]], 0, some ret⟩ G { s with returns := some ret, scope := s.scope.push } := by
  have hin : Ready ⟨[], 0, some ret⟩ G { s with returns := some ret } :=
    { h with
      returns := rfl
      result := fun t ht => by
        cases ht
        exact hret }
  exact hin.push

/-- The signature of a definition has been declared, and its parameters have types. -/
theorem KnownGlobals.signature {f : FuncDecl} {ret : TypeId} {ps : List ParamDecl}
    {ts : List TypeId} {s₁ s₂ s₃ : Typing.State} (hG : Ready Site.outermost G s)
    (h : KnownGlobals config u r tree G) (herrors : s.errors = #[])
    (hresult : Typing.outcome (Typing.checkResult f.returns) s = (.ok ret, s₁))
    (hps : Typing.params f.body.isSome f.params s₁ = ((ps, .ok ts), s₂))
    (hdeclare : Typing.outcome (Typing.declareFunction f.name ret
      ⟨ts, f.variadic, f.isDefinition, false⟩ f.span) s₂ = (.ok x, s₃)) :
    ∃ G', Ready Site.outermost G' s₃ ∧ KnownGlobals config u r tree G' ∧ s₃.registry.Valid ret ∧
      ∀ p ∈ ps, ∃ t, p.resolved = some t ∧ s₃.registry.Movable t := by
  obtain ⟨hG₁, -, hret⟩ := (Typing.checks_checkResult (K := fun _ => True) f.returns).holds hresult G hG
    fun _ _ => trivial
  have hquiet := Typing.quiet_checkResult f.returns s
  rw [hresult] at hquiet
  have hsame := Typing.same_params f.body.isSome f.params s₁
  rw [hps] at hsame
  obtain ⟨G₂, hG₂, hlater, hparams⟩ := (Typing.accepts_params Site.outermost (fun _ => True) _ _).holds
    hps (hsame.errors.trans (hquiet.errors.trans herrors)) G hG₁ fun _ _ => trivial
  obtain rfl : G₂ = G := List.singleton_inj.mp
    (hG₂.symbols.symm.trans (hsame.symbols.trans hG₁.symbols))
  obtain ⟨G₃, hG₃, hlater₃⟩ := (Typing.advances_declareFunction
    (K := Typing.Later (s₂.env G₂)) (fun E _ hE => hret E (hlater.trans hE))
    fun E _ hE => (hparams E hE).2).ready hdeclare G₂ hG₂ fun _ hE => hE
  have hdeclared := Typing.outcome_declareFunction f.name ret
    ⟨ts, f.variadic, f.isDefinition, false⟩ f.span s₂
  rw [hdeclare] at hdeclared
  split at hdeclared
  · obtain ⟨-, rfl⟩ := Prod.mk.inj hdeclared
    obtain rfl := hG₂.globals_replace hG₃
    refine ⟨_, hG₃, h.function rfl fun _ hsym => hsym, (hret _ (hlater.trans hlater₃)).1, ?_⟩
    exact fun p hp => ((hparams _ hlater₃).1 p hp).1
  · cases hdeclared

/-- A body begins with the same parameters in scope on both sides. -/
theorem Follows.ofFunction {f g : FuncDecl} {ds ds' : List TopDecl} {body : Block}
    {c : Lowering.Context}
    (hn : Typing.Visits config u path (.decls (.function f :: ds)) s)
    (hm : Lowering.Visits r tree path (.decls r (.function g :: ds')) l)
    (hG : Ready Site.outermost G s) (hglobals : KnownGlobals config u r tree G)
    (hp : Passed (Typing.topDecl (.function f)) s (.function g) x s') (hbody : g.body = some body)
    (hstart : Lowering.functionStart r g l = .ok (c, l')) :
    ∃ is s₁ y s₂ C G' Δ, Typing.Visits config u (path ++ [0]) (.items true is) s₁ ∧
      Passed (Typing.blockItems true is) s₁ body.items y s₂ ∧
      Follows config u r tree C G' Δ s₁ l' := by
  have herrors := (Typing.declared_topDecl hp.run).1 hp.errors
  obtain ⟨g', hp, h⟩ := hp.topFunction
  cases h
  cases hf : f.body with
  | none =>
    rw [hp.prototype hf] at hbody
    cases hbody
  | some block =>
    obtain ⟨ret, s₁, ps, ts, s₂, w, s₃, z, s₄, b, y, s₅, hresult, hps, hdeclare, hdefine, hitems,
      rfl⟩ := hp.function hf
    cases hbody
    obtain ⟨G', hG', hglobals', hret, hresolved⟩ :=
      hglobals.signature hG herrors hresult hps hdeclare
    have hreceived := Typing.received_params hps
    rw [hf] at hreceived
    obtain ⟨returns, _, hreturns, hstart⟩ := Lowering.bind_eq_ok.mp hstart
    obtain ⟨qs, _, hlift, hstart⟩ := Lowering.bind_eq_ok.mp hstart
    obtain ⟨_, l₂, hmodify, hstart⟩ := Lowering.bind_eq_ok.mp hstart
    obtain ⟨_, _, hreceive, hstart⟩ := Lowering.bind_eq_ok.mp hstart
    obtain ⟨-, rfl⟩ := Lowering.pure_eq_ok.mp hstart
    obtain ⟨hqs, rfl⟩ := Lowering.lift_eq_ok.mp hlift
    obtain ⟨-, rfl⟩ := Lowering.need_eq_ok.mp hreturns
    have hparams : Parameters config u r tree path ps qs l :=
      ⟨⟨f, ds, s, ret, s₁, ts, s₂, hn, hresult, hps⟩, ⟨_, ds', hm, hqs⟩, hqs⟩
    have hstart : Follows config u r tree ⟨[[]], 0, some ret⟩ G' [[]]
        { s₃ with returns := some ret, scope := s₃.scope.push } l₂ := by
      cases hmodify
      exact {
        ready := hG'.enterFunction hret
        inside := List.cons_ne_nil _ _
        frames := rfl
        slots := rfl
        known := List.forall_mem_singleton.mpr (List.forall_mem_nil _)
        fresh := List.forall_mem_singleton.mpr (List.forall_mem_nil _)
        distinct := List.nodup_nil
        globals := hglobals' }
    have hsplit : ps = [] ++ ps := rfl
    obtain ⟨C, Δ, hfollows⟩ := hparams.follows_all hsplit (hreceived.named rfl)
      (fun p hp => by
        obtain ⟨t, ht, hmovable⟩ := hresolved p hp
        exact ⟨t, ht, hmovable.valid, hmovable.not_isVoid⟩)
      (Lowering.bind_eq_ok.mpr ⟨_, l₂, hmodify, rfl⟩) hstart hdefine hreceive
    exact ⟨block.items, s₄, y, s₅, C, G', Δ, hn.enter (.function hresult hps hdeclare hf hdefine),
      hitems, hfollows⟩

end

end MiniC
