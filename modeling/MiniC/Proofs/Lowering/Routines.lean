import MiniC.Proofs.Lowering.Abiding
import MiniC.Proofs.Lowering.Functions
/-!
The code of whole units. A function copies what it is passed into objects of its own, and keeps the
terms from then on. Main statement: the code of every function of a unit that makes sense keeps the
terms, if the terms suit the unit.
-/
namespace MiniC.Lowering

open Code (Function Global Obeys Param Terms)
open Syntax
open Typing (Frames IsFunction IsParam IsUnit Node addParam paramSymbols)

section Parameters

variable {M : Pact} {r : Registry} {returns : TypeId} {P : Claim} {Γ : Frames} {index : Nat}

/-- A parameter becomes an object that its name stands for. -/
theorem emits_receive (hM : M.Sound r returns) {p : Param} (sym : Symbol)
    (hname : sym.name = p.name) (hty : sym.ty = p.ty) (hparam : ∀ v, M.terms.param M.name index v → M.Fits r p.ty v) :
    Emits M r P Γ (Γ.declare sym) (receive r index p) fun _ => .any := by
  have hincoming : Emits M r P Γ Γ (define (.param · index)) (Claim.fits M r p.ty) :=
    .define _ fun t T n _ hT ht =>
      ⟨fun v hv => hT ▸ hparam v hv, fun u hu => by cases hu; exact ht, nofun⟩
  refine hincoming.bind fun incoming => (emits_allocate p.ty).bind fun slot => ?_
  have hslot := Claim.gives_right (P.and (.fits M r p.ty incoming))
    (.carries M.terms (.temp slot) (M.terms.reach · 0 (r.sizeOf p.ty)))
  have hbind {Q : Claim}
      (h : Q.Gives (.carries M.terms (.temp slot) (M.terms.reach · 0 (r.sizeOf p.ty)))) :
      Emits M r Q Γ (Γ.declare sym) (bind p.name slot) fun _ => .any := by
    rw [← hname]
    exact emits_bind sym (hty ▸ h)
  refine .ite (fun hstruct => ?_) fun _ => ?_
  · refine (emits_copy hM hslot ?_).bind fun _ => hbind (hslot.left _)
    exact ((Claim.gives_right _ _).left _).weaken fun v hv => hv hstruct
  · exact (emits_store hM hslot ((Claim.gives_right _ _).word.left _)).bind fun _ =>
      hbind (hslot.left _)

/-- By induction on the parameters. -/
theorem emits_receiveAll (hM : M.Sound r returns) {ps : List ParamDecl} {qs : List Param}
    {syms : List Symbol} (hps : ∀ p ∈ ps, IsParam ⟨r, M.globals⟩ true p) (hqs : params ps = .ok qs)
    (hparam : ∀ (i : Nat) p t, ps[i]? = some p → p.resolved = some t →
      ∀ v, M.terms.param M.name (index + i) v → M.Fits r t v) :
    Emits M r P [syms] [ps.foldl addParam syms] (receiveAll r index qs) fun _ => .any := by
  induction ps generalizing qs syms index P with
  | nil =>
    cases hqs
    exact .pure (Claim.gives_any P)
  | cons p ps ih =>
    obtain ⟨⟨t, ht, -⟩, hnamed⟩ := hps p (List.mem_cons_self ..)
    obtain ⟨name, hname⟩ := Option.isSome_iff_exists.mp (hnamed rfl)
    rw [params] at hqs
    simp only [ht] at hqs
    cases hrest : params ps with
    | error e => rw [hrest] at hqs; cases hqs
    | ok rest =>
      rw [hrest] at hqs
      cases hqs
      have hlabel : p.name.getD "" = name := by rw [hname]; rfl
      have hadd : addParam syms p = ⟨name, .parameter, t, p.span⟩ :: syms := by
        simp only [addParam, hname, ht]
      rw [hlabel, List.foldl_cons, hadd]
      refine (emits_receive hM ⟨name, .parameter, t, p.span⟩ rfl rfl
        (hparam 0 p t rfl ht)).andThen fun _ => ?_
      refine ih (fun q hq => hps q (List.mem_cons_of_mem _ hq)) hrest fun i q u hq hu v hv => ?_
      exact hparam (i + 1) q u hq hu v (by rwa [Nat.add_right_comm] at hv)

end Parameters

/-- Terms that suit the functions of a unit. -/
structure Suits (K : Terms) (r : Registry) (G : List Symbol) (ds : List TopDecl) : Prop where
  sound : ∀ f, .function f ∈ ds → ∀ returns, f.resolvedReturn = some returns →
    Pact.Sound ⟨K, f.name, G⟩ r returns
  params : ∀ f, .function f ∈ ds → ∀ (i : Nat) p t, f.params[i]? = some p → p.resolved = some t →
    ∀ v, K.param f.name i v → Pact.Fits ⟨K, f.name, G⟩ r t v
  allows : ∀ f, .function f ∈ ds → Pact.Allows ⟨K, f.name, G⟩ (Node.ofTopDecl (.function f))

section Functions

variable {K : Terms} {r : Registry} {G : List Symbol} {s s' : State}

/-- What is written for a function is written from nothing. -/
theorem obedient_enter (M : Pact) (r : Registry) (s : State) :
    Obedient M r [[]] (fun _ _ => True) { s with code := #[], temps := 0, slots := [[]] } where
  code := nofun
  below := nofun
  depth := rfl
  locals _ := trivial

theorem obeys_function {f : FuncDecl} {body : Block} {g : Function}
    (hf : IsFunction ⟨r, G⟩ f) (hbody : f.body = some body) {ds : List TopDecl}
    (hK : Suits K r G ds) (hmem : .function f ∈ ds) (h : function r f body s = .ok (g, s')) :
    ∃ T, ∀ i ∈ g.body, Obeys K T g.name i := by
  obtain ⟨returns, s₁, hreturns, h⟩ := bind_eq_ok.mp h
  obtain ⟨qs, s₂, hparams, h⟩ := bind_eq_ok.mp h
  obtain ⟨⟨⟩, s₃, henter, h⟩ := bind_eq_ok.mp h
  obtain ⟨⟨⟩, s₄, hreceive, h⟩ := bind_eq_ok.mp h
  obtain ⟨⟨⟩, s₅, hitems, h⟩ := bind_eq_ok.mp h
  obtain ⟨⟨⟩, s₆, hret, h⟩ := bind_eq_ok.mp h
  obtain ⟨s₇, _, hget, h⟩ := bind_eq_ok.mp h
  obtain ⟨rfl, rfl⟩ := pure_eq_ok.mp h
  cases hget
  cases henter
  obtain ⟨hresolved, rfl⟩ := need_eq_ok.mp hreturns
  obtain ⟨hqs, rfl⟩ := lift_eq_ok.mp hparams
  have hM := hK.sound f hmem returns hresolved
  have hallows := hK.allows f hmem
  rw [Node.ofTopDecl, hbody, Pact.allows_cons] at hallows
  have hnamed : ∀ p ∈ f.params, IsParam ⟨r, G⟩ true p := by
    have hdefinition : f.isDefinition = true := by simp [FuncDecl.isDefinition, hbody]
    exact hdefinition ▸ hf.params
  have hreceived : Emits ⟨K, f.name, G⟩ r .any [[]] [paramSymbols f.params] (receiveAll r 0 qs)
      fun _ => .any :=
    emits_receiveAll hM hnamed hqs fun i p t hp ht v hv =>
      hK.params f hmem i p t hp ht v (by rwa [Nat.zero_add] at hv)
  have hcode := emits_blockItems ⟨r, returns, none, none⟩ hM (.ofFunction f) body.items
    (hf.body body hbody) hallows.2
  have hfallthrough {Γ : Frames} : Emits ⟨K, f.name, G⟩ r .any Γ Γ
      (emit (.ret (fallthrough r returns))) fun _ => .any := by
    have hzero := hM.result 0 fun a _ => a.truncate_zero
    refine .emit fun T n _ => ?_
    unfold fallthrough
    split
    · exact ⟨hzero, by rintro _ ⟨⟩, by rintro _ ⟨⟩⟩
    · refine ⟨?_, by rintro _ ⟨⟩, fun o ho => List.mem_singleton.mp ho ▸ trivial⟩
      rintro v rfl
      exact hzero
  obtain ⟨T₄, -, -, hs₄, -⟩ := hreceived (obedient_enter _ r _) trivial hreceive
  obtain ⟨T₅, -, -, hs₅, -⟩ := hcode hs₄ trivial hitems
  obtain ⟨T, -, -, hs, -⟩ := hfallthrough hs₅ trivial hret
  exact ⟨T, hs.code⟩

/-- By induction on the declarations, of which the functions were lowered in order. -/
theorem obeys_topDecls {ds ds' : List TopDecl} {functions : List Function} {gs : List Global}
    (hds : ∀ d ∈ ds, Typing.IsTopDecl ⟨r, G⟩ d) (hK : Suits K r G ds') (hsub : ds ⊆ ds')
    (h : topDecls r ds s = .ok ((functions, gs), s')) :
    ∀ g ∈ functions, ∃ T, ∀ i ∈ g.body, Obeys K T g.name i := by
  induction ds generalizing s functions gs with
  | nil =>
    rw [topDecls] at h
    obtain ⟨h, -⟩ := pure_eq_ok.mp h
    cases h
    exact List.forall_mem_nil _
  | cons d ds ih =>
    have hrest := fun d hd => hds d (List.mem_cons_of_mem _ hd)
    have hsub' : ds ⊆ ds' := fun d hd => hsub (List.mem_cons_of_mem _ hd)
    cases d with
    | declaration d =>
      rw [topDecls] at h
      obtain ⟨here, s₁, -, h₁⟩ := bind_eq_ok.mp h
      obtain ⟨⟨functions', later⟩, s₂, hlater, h₂⟩ := bind_eq_ok.mp h₁
      obtain ⟨heq, rfl⟩ := pure_eq_ok.mp h₂
      cases heq
      exact ih hrest hsub' hlater
    | function f =>
      have hf := hds _ (List.mem_cons_self ..)
      rw [topDecls] at h
      cases hbody : f.body with
      | none =>
        simp only [hbody] at h
        exact ih hrest hsub' h
      | some body =>
        simp only [hbody] at h
        obtain ⟨here, s₁, hhere, h⟩ := bind_eq_ok.mp h
        obtain ⟨⟨functions', later⟩, s₂, hlater, h⟩ := bind_eq_ok.mp h
        obtain ⟨heq, rfl⟩ := pure_eq_ok.mp h
        cases heq
        exact List.forall_mem_cons.mpr
          ⟨obeys_function hf hbody hK (hsub (List.mem_cons_self ..)) hhere, ih hrest hsub' hlater⟩

/-- The code of every function of a unit keeps terms that suit the unit. -/
theorem obeys_lower {u : CompilationUnit} {m : Code.Module} (hu : IsUnit ⟨r, G⟩ u)
    (hK : Suits K r G u.decls) (h : lower r u = .ok m) :
    ∀ g ∈ m.functions, ∃ T, ∀ i ∈ g.body, Obeys K T g.name i := by
  unfold lower at h
  cases hrun : (topDecls r u.decls).run State.initial with
  | error e => rw [hrun] at h; cases h
  | ok result =>
    rw [hrun] at h
    obtain ⟨⟨functions, gs⟩, s⟩ := result
    cases h
    exact obeys_topDecls hu hK (List.Subset.refl _) hrun

end Functions

end MiniC.Lowering
