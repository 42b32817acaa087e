import MiniC.Lowering.Unit
import MiniC.Proofs.Lowering.Soundness
/-!
The code of whole units. Main statements: the body of each function is orderly if its names mean
something, and the functions and globals of a module are those of the tree.
-/
namespace MiniC.Lowering

open Code (Function Global Inst Module Names Operand Orderly Param Summary Temp)
open Syntax

section Parts

variable {N : Names} {L : Locals} {os : List Operand}

theorem sound_receive (r : Registry) {index : Nat} (h : index < N.arity) (p : Param) :
    Sound N ∅ L (L.declare p.name) os (receive r index p) fun _ => [] := by
  have hincoming : Sound N ∅ L L os (define (.param · index)) fun v => [v] :=
    .define (fun _ => rfl) (fun _ => rfl) (fun _ => rfl) (fun _ => rfl) (fun _ => h) fun _ => nofun
  refine hincoming.bind fun incoming => (sound_allocate r p.ty).bind fun slot => ?_
  exact .ite ((sound_copy r (has_self _ _) ((has_self _ _).tail _)).bind fun _ =>
      .bindName p.name (has_self _ _))
    ((sound_store r (has_self _ _) ((has_self _ _).tail _)).bind fun _ =>
      .bindName p.name (has_self _ _))

theorem sound_receiveAll (r : Registry) (ps : List Param) {index : Nat}
    (h : index + ps.length ≤ N.arity) :
    Sound N ∅ L ((ps.map (·.name)).foldl Locals.declare L) os (receiveAll r index ps)
      fun _ => [] := by
  induction ps generalizing index L os with
  | nil => exact .pure (List.forall_mem_nil _)
  | cons p ps ih =>
    rw [List.length_cons] at h
    exact (sound_receive r (by omega) p).bind fun _ => ih (by omega)

theorem sound_fallthrough (r : Registry) (returns : TypeId) :
    Sound N ∅ L L os (emit (.ret (fallthrough r returns))) fun _ => [] := by
  refine .ret fun o ho => ?_
  unfold fallthrough at ho
  split at ho
  · cases ho
  · cases ho
    exact has_const _ 0

end Parts

theorem lift_eq_ok {α : Type} {x : Except LoweringError α} {s s' : State} {a : α} :
    (liftM x : Lower α) s = .ok (a, s') ↔ x = .ok a ∧ s' = s := by
  cases x with
  | error e => exact ⟨nofun, nofun⟩
  | ok b =>
    constructor
    · rintro ⟨⟩
      exact ⟨rfl, rfl⟩
    · rintro ⟨⟨⟩, rfl⟩
      rfl

theorem params_eq_ok {ps : List ParamDecl} {qs : List Param} (h : params ps = .ok qs) :
    qs.map (·.name) = ps.map (·.label) := by
  induction ps generalizing qs with
  | nil =>
    cases h
    rfl
  | cons p ps ih =>
    rw [params] at h
    cases hresolved : p.resolved with
    | none => rw [hresolved] at h; cases h
    | some ty =>
      simp only [hresolved] at h
      cases hrest : params ps with
      | error e => rw [hrest] at h; cases h
      | ok rest =>
        rw [hrest] at h
        cases h
        exact congrArg _ (ih hrest)

/-- At the beginning of a function there is nothing to be in order. -/
theorem ready_enter (N : Names) (s : State) :
    Ready N ∅ [[]] [] ∅ (fun _ => ∅) ∅ { s with code := #[], temps := 0, slots := [[]] } where
  inv :=
    { labels := List.nodup_nil
      old := fun _ h => h.elim (fun h => absurd h List.not_mem_nil) False.elim
      owed := fun _ h => h.elim
      targets := List.forall_mem_nil _
      flows := trivial
      available := rfl
      fine := List.forall_mem_nil _ }
  targets _ h := h.elim
  bound := ⟨rfl, by simp⟩
  usable := List.forall_mem_nil _

/-- What a function is called and takes, and how its body is made. -/
structure Made (N : Names) (f : FuncDecl) (g : Function) (data : List Code.Label) : Prop where
  name : g.name = f.name
  arity : g.params.length = f.params.length
  orderly : ∃ S, Orderly { N with arity := g.params.length } g.temps data S g.body

theorem Made.mono {N : Names} {f : FuncDecl} {g : Function} {data data' : List Code.Label}
    (h : Made N f g data) (hdata : data ⊆ data') : Made N f g data' where
  name := h.name
  arity := h.arity
  orderly := by
    obtain ⟨S, horderly⟩ := h.orderly
    exact ⟨S, { horderly with
      fine := fun i hi => (horderly.fine i hi).mono (Nat.le_refl _) hdata }⟩

theorem function_eq_ok {N : Names} {r : Registry} {f : FuncDecl} {body : Block} {s s' : State}
    {g : Function} (h : function r f body s = .ok (g, s')) (hf : f.body = some body)
    (hscoped : Scoped.topDecl N (.function f)) :
    Made N f g (s'.data.toList.map (·.label)) ∧ s.data.toList <+: s'.data.toList := by
  obtain ⟨returns, s₁, hreturns, h⟩ := bind_eq_ok.mp h
  obtain ⟨qs, s₂, hparams, h⟩ := bind_eq_ok.mp h
  obtain ⟨⟨⟩, s₃, henter, h⟩ := bind_eq_ok.mp h
  obtain ⟨⟨⟩, s₄, hreceive, h⟩ := bind_eq_ok.mp h
  obtain ⟨⟨⟩, s₅, hitems, h⟩ := bind_eq_ok.mp h
  obtain ⟨⟨⟩, s₆, hret, h⟩ := bind_eq_ok.mp h
  obtain ⟨s₇, _, hget, h⟩ := bind_eq_ok.mp h
  obtain ⟨rfl, rfl⟩ := pure_eq_ok.mp h
  cases hget
  cases henter
  obtain ⟨-, rfl⟩ := need_eq_ok.mp hreturns
  obtain ⟨hqs, rfl⟩ := lift_eq_ok.mp hparams
  have hnames := params_eq_ok hqs
  have hlength : qs.length = f.params.length := by simpa using congrArg List.length hnames
  have hscope := hscoped body hf
  rw [← hnames, ← hlength] at hscope
  have hreceived : Sound { N with arity := qs.length } ∅ [[]] (Locals.ofNames (qs.map (·.name))) []
      (receiveAll r 0 qs) fun _ => [] := sound_receiveAll r qs (by simp)
  obtain ⟨_, _, hready₄, hlater₄⟩ := hreceived hreceive (ready_enter _ _)
  have hbody := sound_blockItems ⟨r, returns, none, none⟩ _ _ hscope []
  have htargets : Context.targets ⟨r, returns, none, none⟩ = ∅ :=
    Set.eq_empty_of_forall_notMem fun l hl => hl.elim nofun nofun
  rw [htargets] at hbody
  obtain ⟨_, _, hready₅, hlater₅⟩ := hbody hitems hready₄
  obtain ⟨S, _, hready, hlater⟩ := sound_fallthrough r returns hret hready₅
  refine ⟨⟨rfl, hlength, S, hready.inv.labels, ?_, hready.inv.flows, hready.inv.fine⟩,
    hlater₄.data.trans (hlater₅.data.trans hlater.data)⟩
  exact fun i hi l hl => (hready.inv.targets i hi l hl).resolve_right nofun

theorem name_of_function {r : Registry} {f : FuncDecl} {body : Block} {s s' : State} {g : Function}
    (h : function r f body s = .ok (g, s')) : g.name = f.name := by
  obtain ⟨_, _, _, h⟩ := bind_eq_ok.mp h
  obtain ⟨_, _, _, h⟩ := bind_eq_ok.mp h
  obtain ⟨_, _, _, h⟩ := bind_eq_ok.mp h
  obtain ⟨_, _, _, h⟩ := bind_eq_ok.mp h
  obtain ⟨_, _, _, h⟩ := bind_eq_ok.mp h
  obtain ⟨_, _, _, h⟩ := bind_eq_ok.mp h
  obtain ⟨_, _, _, h⟩ := bind_eq_ok.mp h
  obtain ⟨rfl, -⟩ := pure_eq_ok.mp h
  rfl

/-! Units. -/

theorem globalOf_eq_ok {r : Registry} {v : VarDecl} {g : Global} (h : globalOf r v = .ok g) :
    g.name = v.name := by
  unfold globalOf at h
  cases hresolved : v.resolved with
  | none => simp only [hresolved] at h; cases h
  | some ty =>
    simp only [hresolved] at h
    cases hinit : v.init with
    | none =>
      simp only [hinit] at h
      cases h
      rfl
    | some init =>
      simp only [hinit] at h
      cases himage : Static.image r ty init with
      | error e => rw [himage] at h; cases h
      | ok image =>
        rw [himage] at h
        cases h
        rfl

theorem exists_of_forall₂ {α β : Type} {R : α → β → Prop} {xs : List α} {ys : List β} {x : α}
    (h : List.Forall₂ R xs ys) (hx : x ∈ xs) : ∃ y ∈ ys, R x y := by
  obtain ⟨i, hi, rfl⟩ := List.mem_iff_getElem.mp hx
  obtain ⟨hlength, hall⟩ := List.forall₂_iff_get.mp h
  exact ⟨ys.get ⟨i, hlength ▸ hi⟩, List.get_mem _ _, hall i hi (hlength ▸ hi)⟩

/-- What succeeds for a list succeeds for each of its items. -/
theorem forall₂_of_mapM {ε α β : Type} {f : α → Except ε β} {xs : List α} {ys : List β}
    (h : xs.mapM f = .ok ys) : List.Forall₂ (fun x y => f x = .ok y) xs ys := by
  induction xs generalizing ys with
  | nil =>
    cases h
    exact .nil
  | cons x xs ih =>
    rw [List.mapM_cons] at h
    cases hx : f x with
    | error e => rw [hx] at h; cases h
    | ok y =>
      cases hxs : xs.mapM f with
      | error e => rw [hx, hxs] at h; cases h
      | ok rest =>
        rw [hx, hxs] at h
        cases h
        exact .cons hx (ih hxs)

theorem mapM_globalOf_eq_ok {r : Registry} {vs : List VarDecl} {gs : List Global}
    (h : vs.mapM (globalOf r) = .ok gs) : gs.map (·.name) = vs.map (·.name) := by
  have hnames : List.Forall₂ (· = ·) (vs.map (·.name)) (gs.map (·.name)) :=
    List.forall₂_map_left_iff.mpr (List.forall₂_map_right_iff.mpr
      ((forall₂_of_mapM h).imp fun _ _ hv => (globalOf_eq_ok hv).symm))
  rw [List.forall₂_eq_eq_eq] at hnames
  exact hnames.symm

theorem globals_eq_ok {r : Registry} {kind : DeclKind} {gs : List Global}
    (h : globals r kind = .ok gs) : gs.map (·.name) = kind.declared.map (·.name) := by
  cases kind with
  | vars vs => exact mapM_globalOf_eq_ok h
  | struct spec =>
    cases h
    rfl

theorem topDecls_eq_ok {N : Names} {r : Registry} {ds : List TopDecl} {s s' : State}
    {functions : List Function} {gs : List Global}
    (h : topDecls r ds s = .ok ((functions, gs), s')) (hds : ∀ d ∈ ds, Scoped.topDecl N d) :
    gs.map (·.name) = ds.flatMap TopDecl.globals ∧ s.data.toList <+: s'.data.toList ∧
      ∀ g ∈ functions, ∃ f, .function f ∈ ds ∧ f.body.isSome ∧
        Made N f g (s'.data.toList.map (·.label)) := by
  induction ds generalizing s functions gs with
  | nil =>
    rw [topDecls] at h
    obtain ⟨h, rfl⟩ := pure_eq_ok.mp h
    cases h
    exact ⟨rfl, List.prefix_rfl, nofun⟩
  | cons d ds ih =>
    have hrest := fun d hd => hds d (List.mem_cons_of_mem _ hd)
    cases d with
    | declaration d =>
      rw [topDecls] at h
      obtain ⟨here, s₁, hhere, h₁⟩ := bind_eq_ok.mp h
      obtain ⟨hglobals, rfl⟩ := lift_eq_ok.mp hhere
      obtain ⟨⟨functions', later⟩, s₂, hlater, h₂⟩ := bind_eq_ok.mp h₁
      obtain ⟨heq, rfl⟩ := pure_eq_ok.mp h₂
      cases heq
      obtain ⟨hnames, hdata, hmade⟩ := ih hlater hrest
      refine ⟨?_, hdata, ?_⟩
      · rw [List.map_append, globals_eq_ok hglobals, hnames]
        rfl
      · intro g hg
        obtain ⟨f, hf, hbody, hmade⟩ := hmade g hg
        exact ⟨f, List.mem_cons_of_mem _ hf, hbody, hmade⟩
    | function f =>
      rw [topDecls] at h
      cases hbody : f.body with
      | none =>
        simp only [hbody] at h
        obtain ⟨hnames, hdata, hmade⟩ := ih h hrest
        refine ⟨hnames, hdata, ?_⟩
        intro g hg
        obtain ⟨f, hf, hbody, hmade⟩ := hmade g hg
        exact ⟨f, List.mem_cons_of_mem _ hf, hbody, hmade⟩
      | some body =>
        simp only [hbody] at h
        obtain ⟨here, s₁, hhere, h⟩ := bind_eq_ok.mp h
        obtain ⟨⟨functions', later⟩, s₂, hlater, h⟩ := bind_eq_ok.mp h
        obtain ⟨heq, rfl⟩ := pure_eq_ok.mp h
        cases heq
        obtain ⟨hmade₁, hdata₁⟩ := function_eq_ok hhere hbody (hds _ (List.mem_cons_self ..))
        obtain ⟨hnames, hdata, hmade⟩ := ih hlater hrest
        refine ⟨hnames, hdata₁.trans hdata, ?_⟩
        intro g hg
        rcases List.mem_cons.mp hg with rfl | hg
        · exact ⟨f, List.mem_cons_self .., by simp [hbody], hmade₁.mono (hdata.map _).subset⟩
        · obtain ⟨f, hf, hbody, hmade⟩ := hmade g hg
          exact ⟨f, List.mem_cons_of_mem _ hf, hbody, hmade⟩

/-- No definition is left out. -/
theorem exists_function_of_topDecls {r : Registry} {ds : List TopDecl} {s s' : State}
    {functions : List Function} {gs : List Global} {f : FuncDecl}
    (h : topDecls r ds s = .ok ((functions, gs), s')) (hf : .function f ∈ ds)
    (hbody : f.body.isSome) : ∃ g ∈ functions, g.name = f.name := by
  induction ds generalizing s functions gs with
  | nil => cases hf
  | cons d ds ih =>
    cases d with
    | declaration d =>
      have hlater : .function f ∈ ds := by simpa using hf
      rw [topDecls] at h
      obtain ⟨here, s₁, -, h⟩ := bind_eq_ok.mp h
      obtain ⟨⟨functions', later⟩, s₂, hrest, h⟩ := bind_eq_ok.mp h
      obtain ⟨heq, rfl⟩ := pure_eq_ok.mp h
      cases heq
      exact ih hrest hlater
    | function f' =>
      rw [topDecls] at h
      cases hbody' : f'.body with
      | none =>
        simp only [hbody'] at h
        rcases List.mem_cons.mp hf with heq | hlater
        · obtain rfl := TopDecl.function.inj heq
          rw [hbody'] at hbody
          cases hbody
        · exact ih h hlater
      | some body =>
        simp only [hbody'] at h
        obtain ⟨here, s₁, hhere, h⟩ := bind_eq_ok.mp h
        obtain ⟨⟨functions', later⟩, s₂, hrest, h⟩ := bind_eq_ok.mp h
        obtain ⟨heq, rfl⟩ := pure_eq_ok.mp h
        cases heq
        rcases List.mem_cons.mp hf with heq | hlater
        · obtain rfl := TopDecl.function.inj heq
          exact ⟨here, List.mem_cons_self .., name_of_function hhere⟩
        · obtain ⟨g, hg, hname⟩ := ih hrest hlater
          exact ⟨g, List.mem_cons_of_mem _ hg, hname⟩

theorem exists_function_of_lower {r : Registry} {u : CompilationUnit} {m : Module} {f : FuncDecl}
    (h : lower r u = .ok m) (hf : .function f ∈ u.decls) (hbody : f.body.isSome) :
    ∃ g ∈ m.functions, g.name = f.name := by
  unfold lower at h
  cases hrun : (topDecls r u.decls).run State.initial with
  | error e => rw [hrun] at h; cases h
  | ok result =>
    rw [hrun] at h
    obtain ⟨⟨functions, gs⟩, s⟩ := result
    cases h
    exact exists_function_of_topDecls hrun hf hbody

/-- The functions and globals of a module are those of the tree. -/
theorem lower_eq_ok {N : Names} {r : Registry} {u : CompilationUnit} {m : Module}
    (h : lower r u = .ok m) (hu : ∀ d ∈ u.decls, Scoped.topDecl N d) :
    m.globals.map (·.name) = u.decls.flatMap TopDecl.globals ∧
      ∀ g ∈ m.functions, ∃ f, .function f ∈ u.decls ∧ f.body.isSome ∧
        Made N f g (m.data.map (·.label)) := by
  unfold lower at h
  cases hrun : (topDecls r u.decls).run State.initial with
  | error e => rw [hrun] at h; cases h
  | ok result =>
    rw [hrun] at h
    obtain ⟨⟨functions, gs⟩, s⟩ := result
    cases h
    obtain ⟨hnames, -, hmade⟩ := topDecls_eq_ok hrun hu
    exact ⟨hnames, hmade⟩

end MiniC.Lowering
