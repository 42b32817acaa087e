import MiniC.Proofs.Typing.Stability
/-!
Checks and the typing judgement. A state is ready for a site if its names are those of the site and
all types in it are types of its registry. Main statements: a check that succeeds leaves the state
ready, its registry only grows, and what it found out holds in every later environment.
-/
namespace MiniC

/-- A symbol whose types are types of the registry; what it stands for is an object, or gives none
or one scalar. -/
def Symbol.Fits (r : Registry) (sym : Symbol) : Prop :=
  r.Valid sym.ty ∧
    match sym.kind with
    | .function sig =>
      (r.isVoid sym.ty = true ∨ r.isScalar sym.ty = true) ∧ ∀ p ∈ sig.params, r.Movable p
    | _ => r.isVoid sym.ty = false

theorem Symbol.Fits.grows {r r' : Registry} {sym : Symbol} (h : sym.Fits r)
    (hg : Registry.Grows r r') : sym.Fits r' := by
  obtain ⟨hvalid, hkind⟩ := h
  refine ⟨hg.valid hvalid, ?_⟩
  split at hkind
  · simp only [hg.isVoid_eq hvalid, hg.isScalar_eq hvalid]
    exact ⟨hkind.1, fun p hp => (hkind.2 p hp).within hg.toWithin⟩
  · rwa [hg.isVoid_eq hvalid]

theorem Symbol.Fits.object {r : Registry} {sym : Symbol} (h : sym.Fits r) (ho : sym.IsObject) :
    r.isVoid sym.ty = false := by
  obtain ⟨-, hkind⟩ := h
  unfold Symbol.IsObject at ho
  split at hkind
  · rename_i heq
    rw [heq] at ho
    exact ho.elim
  · exact hkind

theorem Registry.isStruct_grows {r r' : Registry} {t : TypeId} (h : r.isStruct t = true)
    (hg : Registry.Grows r r') : r'.isStruct t = true := by
  rwa [hg.isStruct_eq (Registry.valid_of_isStruct h)]

namespace Typing

open Syntax Check
open Registry (Grows)

structure Env.Sound (E : Env) : Prop where
  consistent : E.registry.Consistent
  solid : E.registry.Solid

/-- Nothing is lost from one environment to another. -/
structure Later (E E' : Env) : Prop where
  sound : E'.Sound
  registry : Grows E.registry E'.registry
  globals : E.globals ⊆ E'.globals

theorem Later.refl {E : Env} (h : E.Sound) : Later E E := ⟨h, Grows.refl _, List.Subset.refl _⟩

theorem Later.trans {E E' E'' : Env} (h : Later E E') (k : Later E' E'') : Later E E'' :=
  ⟨k.sound, h.registry.trans k.registry, List.Subset.trans h.globals k.globals⟩

def State.env (s : State) (G : List Symbol) : Env := ⟨s.registry, G⟩

structure Ready (C : Site) (G : List Symbol) (s : State) : Prop where
  sound : (s.env G).Sound
  symbols : s.scope.symbols = C.frames ++ [G]
  objects : ∀ frame ∈ C.frames, ∀ sym ∈ frame, sym.IsObject
  fits : ∀ frame ∈ s.scope.symbols, ∀ sym ∈ frame, sym.Fits s.registry
  tags : ∀ frame ∈ s.scope.inner :: s.scope.outer, ∀ tag ∈ frame.tags,
    s.registry.isStruct tag.ty = true
  specs : ∀ (id : Nat) (t : TypeId), s.specs[id]? = some t → s.registry.isStruct t = true
  returns : s.returns = C.returns
  result : ∀ t, C.returns = some t → s.registry.Valid t
  loops : s.loopDepth = C.loops

variable {C : Site} {G : List Symbol} {s : State}

/-- Only the registry grew. -/
theorem Ready.grows {r : Registry} (h : Ready C G s) (hg : Grows s.registry r) (hc : r.Consistent)
    (hs : r.Solid) : Ready C G { s with registry := r } where
  sound := ⟨hc, hs⟩
  symbols := h.symbols
  objects := h.objects
  fits frame hframe sym hsym := (h.fits frame hframe sym hsym).grows hg
  tags frame hframe tag htag := Registry.isStruct_grows (h.tags frame hframe tag htag) hg
  specs id t ht := Registry.isStruct_grows (h.specs id t ht) hg
  returns := h.returns
  result t ht := hg.valid (h.result t ht)
  loops := h.loops

theorem Ready.now (h : Ready C G s) : Later (s.env G) (s.env G) := Later.refl h.sound

theorem Ready.symbol_fits {name : String} {sym : Symbol} (h : Ready C G s)
    (hsym : s.scope.lookup name = some sym) : sym.Fits s.registry := by
  rw [lookup_eq] at hsym
  obtain ⟨frame, hframe, hfind⟩ := List.exists_of_findSome?_eq_some hsym
  exact h.fits frame hframe sym (List.mem_of_find?_eq_some hfind)

/-- What a name stands for is found among the locals first. -/
theorem Ready.lookup_eq {name : String} (h : Ready C G s) :
    s.scope.lookup name =
      (C.frames.symbol? name).or (G.find? (·.name == name)) := by
  rw [Typing.lookup_eq, h.symbols, List.findSome?_append]
  simp [Frames.symbol?]

theorem Ready.local_isObject {name : String} {sym : Symbol} (h : Ready C G s)
    (hsym : C.frames.symbol? name = some sym) : sym.IsObject := by
  obtain ⟨frame, hframe, hfind⟩ := List.exists_of_findSome?_eq_some hsym
  exact h.objects frame hframe sym (List.mem_of_find?_eq_some hfind)

theorem Ready.lookupTag_isStruct {name : String} {t : TypeId} (h : Ready C G s)
    (ht : s.scope.lookupTag name = some t) : s.registry.isStruct t = true := by
  obtain ⟨tag, htag, rfl⟩ := Option.map_eq_some_iff.mp ht
  obtain ⟨frame, hframe, hfind⟩ := List.exists_of_findSome?_eq_some htag
  exact h.tags frame hframe tag (List.mem_of_find?_eq_some hfind)

/-- A check at a site. If it succeeds, then under assumptions that hold from then on, the state stays
ready and what was found out holds from then on. -/
structure Checks {α : Type} (C : Site) (K : Env → Prop) (c : Check α) (Q : Env → α → Prop) :
    Prop where
  quiet : Quiet c
  holds : ∀ ⦃s a s'⦄, outcome c s = (.ok a, s') → ∀ G, Ready C G s →
    (∀ E, Later (s.env G) E → K E) →
      Ready C G s' ∧ Grows s.registry s'.registry ∧ ∀ E, Later (s'.env G) E → Q E a

namespace Checks

variable {α β : Type} {K : Env → Prop} {Q : Env → α → Prop} {R : Env → β → Prop} {c : Check α}

theorem pure {a : α} (h : ∀ E, E.Sound → K E → Q E a) : Checks C K (Pure.pure a) Q where
  quiet := .pure a
  holds s b s' hrun G hG hK := by
    cases hrun
    exact ⟨hG, Grows.refl _, fun E hE => h E hE.sound (hK E hE)⟩

theorem throw (e : TypingError) : Checks C K (MonadExcept.throw e : Check α) Q where
  quiet := .throw e
  holds s b s' hrun := by cases hrun

theorem bind {k : α → Check β} (hc : Checks C K c Q)
    (hk : ∀ a, Checks C (fun E => K E ∧ Q E a) (k a) R) : Checks C K (c >>= k) R where
  quiet := hc.quiet.bind fun a => (hk a).quiet
  holds s b s' hrun G hG hK := by
    rw [outcome_bind] at hrun
    cases hc₁ : outcome c s with
    | mk v s₁ =>
      rw [hc₁] at hrun
      cases v with
      | error e => cases hrun
      | ok a =>
        obtain ⟨hG₁, hg₁, hQ⟩ := hc.holds hc₁ G hG hK
        have hlater : Later (s.env G) (s₁.env G) := ⟨hG₁.sound, hg₁, List.Subset.refl _⟩
        obtain ⟨hG₂, hg₂, hR⟩ := (hk a).holds hrun G hG₁ fun E hE =>
          ⟨hK E (hlater.trans hE), hQ E hE⟩
        exact ⟨hG₂, hg₁.trans hg₂, hR⟩

theorem mono {Q' : Env → α → Prop} (hc : Checks C K c Q)
    (h : ∀ E a, E.Sound → K E → Q E a → Q' E a) :
    Checks C K c Q' where
  quiet := hc.quiet
  holds s a s' hrun G hG hK := by
    obtain ⟨hG', hg, hQ⟩ := hc.holds hrun G hG hK
    have hlater : Later (s.env G) (s'.env G) := ⟨hG'.sound, hg, List.Subset.refl _⟩
    exact ⟨hG', hg, fun E hE => h E a hE.sound (hK E (hlater.trans hE)) (hQ E hE)⟩

/-- Fewer assumptions suffice. -/
theorem assuming {K' : Env → Prop} (hc : Checks C K' c Q) (h : ∀ E, K E → K' E) :
    Checks C K c Q where
  quiet := hc.quiet
  holds _ _ _ hrun G hG hK := hc.holds hrun G hG fun E hE => h E (hK E hE)

/-- The outcome of an earlier step, which succeeded. -/
theorem lift_ok {a : α} {k : α → Check β} (hk : Checks C K (k a) R) :
    Checks C K ((liftM (Except.ok a : Verdict α) : Check α) >>= k) R where
  quiet s := hk.quiet s
  holds s _ _ hrun := hk.holds (s := s) hrun

theorem get_bind {k : State → Check β} (hq : ∀ s, Quiet (k s))
    (hk : ∀ s G, Ready C G s → K (s.env G) →
      Checks C (fun E => K E ∧ Later (s.env G) E) (k s) R) : Checks C K (get >>= k) R where
  quiet s := hq s s
  holds s _ _ hrun G hG hK :=
    (hk s G hG (hK _ hG.now)).holds (s := s) hrun G hG fun E hE => ⟨hK E hE, hE⟩

theorem registry_bind {k : Registry → Check β} (hq : ∀ r, Quiet (k r))
    (hk : ∀ s G, Ready C G s → K (s.env G) →
      Checks C (fun E => K E ∧ Later (s.env G) E) (k s.registry) R) :
    Checks C K (registry >>= k) R where
  quiet s := hq s.registry s
  holds s _ _ hrun G hG hK :=
    (hk s G hG (hK _ hG.now)).holds (s := s) hrun G hG fun E hE => ⟨hK E hE, hE⟩

theorem modify_bind {f : State → State} {k : PUnit → Check β} (hf : ∀ s, Same s (f s))
    (hready : ∀ s G, Ready C G s → K (s.env G) → Ready C G (f s) ∧ (f s).registry = s.registry)
    (hk : Checks C K (k ⟨⟩) R) : Checks C K (modify f >>= k) R where
  quiet s := (hf s).trans (hk.quiet (f s))
  holds s _ s' hrun G hG hK := by
    obtain ⟨hG', hr⟩ := hready s G hG (hK _ hG.now)
    have henv : (f s).env G = s.env G := by simp only [State.env, hr]
    obtain ⟨hfinal, hg, hR⟩ := hk.holds (s := f s) hrun G hG' (henv ▸ hK)
    exact ⟨hfinal, hr ▸ hg, hR⟩

/-- Past a test that only fails. -/
theorem guard {p : Prop} [Decidable p] {e : TypingError} {k : PUnit → Check β}
    (hq : Quiet (k ⟨⟩)) (hk : ¬ p → Checks C K (k ⟨⟩) R) :
    Checks C K (if p then (MonadExcept.throw e : Check PUnit) >>= k else k ⟨⟩) R where
  quiet := .guard (.throw e) hq
  holds s b s' hrun := by
    split at hrun
    · cases hrun
    · exact (hk ‹_›).holds hrun

/-- A test that only fails. -/
theorem test {p : Prop} [Decidable p] {e : TypingError} {R : Env → PUnit → Prop}
    (h : ¬ p → ∀ E, E.Sound → K E → R E ⟨⟩) :
    Checks C K (if p then (MonadExcept.throw e : Check PUnit) else Pure.pure ⟨⟩) R where
  quiet := .ite (.throw e) (.pure _)
  holds s b s' hrun G hG hK := by
    split at hrun
    · cases hrun
    · exact (Checks.pure (h ‹_›)).holds hrun G hG hK

theorem rule {f : Registry → Verdict α}
    (h : ∀ E₀ E a, E₀.Sound → K E₀ → f E₀.registry = .ok a → Later E₀ E → K E → Q E a) :
    Checks C K (rule f) Q where
  quiet := .rule f
  holds s a s' hrun G hG hK := by
    rw [outcome_rule] at hrun
    obtain ⟨hf, rfl⟩ := Prod.mk.inj hrun
    exact ⟨hG, Grows.refl _, fun E hE => h (s.env G) E a hG.sound (hK _ hG.now) hf hE (hK E hE)⟩

/-- A type enters the registry. -/
theorem intern {f : Registry → Except LayoutError (TypeId × Registry)} {span : Span}
    {Q : Env → TypeId → Prop}
    (h : ∀ E₀ id r, E₀.Sound → K E₀ → f E₀.registry = .ok (id, r) →
      r.Consistent ∧ r.Solid ∧ Grows E₀.registry r ∧
        ∀ E, Grows r E.registry → Q E id) : Checks C K (intern f span) Q where
  quiet := .intern f span
  holds s a s' hrun G hG hK := by
    rw [outcome_intern] at hrun
    cases hf : f s.registry with
    | error e => rw [hf] at hrun; cases hrun
    | ok result =>
      obtain ⟨t, r⟩ := result
      rw [hf] at hrun
      cases hrun
      obtain ⟨hc, hs, hg, hQ⟩ :=
        h (s.env G) t r hG.sound (hK _ hG.now) hf
      exact ⟨hG.grows hg hc hs, hg, fun E hE => hQ E hE.registry⟩

end Checks

/-! Types that enter. -/

section Types

variable {K : Env → Prop}

/-- What has been interned is there for good. -/
theorem checks_intern {ty : Ty} {span : Span} (hformed : ∀ E, E.Sound → K E → E.registry.Formed ty)
    (helement : ∀ E, E.Sound → K E → ∀ element length, ty = .array element length →
      E.registry.isVoid element = false) :
    Checks C K (intern (·.intern ty) span) fun E t => E.registry.ty t = ty := by
  refine .intern fun E₀ id r hE₀ hK hok => ?_
  have hty := hformed E₀ hE₀ hK
  obtain ⟨hconsistent, hgrows, hfound⟩ := hE₀.consistent.intern hty hok
  refine ⟨hconsistent, hE₀.solid.intern hE₀.consistent hty (helement E₀ hE₀ hK) hok, hgrows,
    fun E hE => ?_⟩
  obtain ⟨hlt, hty⟩ := (hconsistent.lookup ty id).mp hfound
  rw [hE.ty_eq hlt, hty]

theorem checks_pointerTo {t : TypeId} {span : Span} (ht : ∀ E, E.Sound → K E → E.registry.Valid t) :
    Checks C K (pointerTo t span) fun E t' => E.registry.ty t' = .pointer t :=
  checks_intern ht fun _ _ _ _ _ h => by cases h

theorem checks_arrayOf {t : TypeId} {length : Nat} {span : Span}
    (ht : ∀ E, E.Sound → K E → E.registry.Valid t ∧ E.registry.isVoid t = false) :
    Checks C K (arrayOf t length span) fun E t' => E.registry.ty t' = .array t length :=
  checks_intern (fun E hE hK => (ht E hE hK).1) fun E hE hK _ _ h => by
    cases h
    exact (ht E hE hK).2

theorem checks_decay {t : TypeId} {span : Span} (ht : ∀ E, E.Sound → K E → E.registry.Valid t) :
    Checks C K (decay t span) fun E t' => E.registry.Decays t t' ∧ E.registry.Valid t' := by
  refine .registry_bind (fun r => ?_) fun s G hG hK => ?_
  · split
    · exact .intern _ _
    · exact .pure _
  · have hvalid := ht _ hG.sound hK
    split
    · rename_i element length hty
      have helement : s.registry.Valid element :=
        hG.sound.consistent.valid_ref hty (List.mem_singleton_self _)
      refine (checks_pointerTo fun E _ hE => hE.2.registry.valid helement).mono
        fun E t' _ hE hpointer => ?_
      have harray : E.registry.ty t = .array element length := by
        rw [hE.2.registry.ty_eq hvalid]
        exact hty
      refine ⟨?_, Registry.valid_of_ty (by simp [hpointer])⟩
      simp only [Registry.Decays, harray, hpointer]
    · rename_i hty
      refine .pure fun E hsound hE => ⟨?_, ht E hsound hE.1⟩
      unfold Registry.Decays
      split
      · rename_i element length harray
        rw [hE.2.registry.ty_eq hvalid] at harray
        exact absurd harray (hty element length)
      · rfl

/-- Members that are laid out are objects whose types are there. -/
theorem checks_buildStruct {name : Option String} {members : List MemberDecl} {span : Span}
    (hmembers : ∀ E, E.Sound → K E → ∀ d ∈ members,
      E.registry.Valid d.ty ∧ E.registry.isVoid d.ty = false) :
    Checks C K (buildStruct name members span) fun E t => E.registry.isStruct t = true where
  quiet := .buildStruct name members span
  holds s t s' hrun G hG hK := by
    have hnow := hmembers _ hG.sound (hK _ hG.now)
    have hkept : Registry.Kept s.registry (s.registry.buildStruct name members).1
        (s.registry.buildStruct name members).2 :=
      hG.sound.consistent.kept_buildStruct (fun d hd => (hnow d hd).1) name
    obtain ⟨⟨result, r⟩, hbuild⟩ : ∃ y, s.registry.buildStruct name members = y := ⟨_, rfl⟩
    rw [outcome_buildStruct, hbuild] at hrun
    rw [hbuild] at hkept
    cases result with
    | error e => cases hrun
    | ok id =>
      cases hrun
      obtain ⟨hsolid, hstruct⟩ := hG.sound.solid.buildStruct hG.sound.consistent
        (fun d hd => (hnow d hd).1) (fun d hd => (hnow d hd).2) hbuild
      exact ⟨hG.grows hkept.grows hkept.consistent hsolid, hkept.grows, fun E hE =>
        Registry.isStruct_grows hstruct hE.registry⟩

/-- A struct is bound to its tag. -/
theorem checks_enterTag {name : String} {t : TypeId} {tagSpan span : Span}
    (ht : ∀ E, E.Sound → K E → E.registry.isStruct t = true) :
    Checks C K (enter (·.defineTag ⟨name, t, tagSpan⟩) span) fun _ _ => True where
  quiet := .enterTag _ _
  holds s u s' hrun G hG hK := by
    rw [outcome_enter, Scope.defineTag] at hrun
    split at hrun
    · rename_i scope hscope
      cases hrun
      split at hscope
      · cases hscope
      · cases hscope
        refine ⟨{ hG with tags := ?_ }, Grows.refl _, fun _ _ => trivial⟩
        intro frame hframe tag htag
        rcases List.mem_cons.mp hframe with rfl | hframe
        · rcases List.mem_cons.mp htag with rfl | htag
          · exact ht _ hG.sound (hK _ hG.now)
          · exact hG.tags _ (List.mem_cons_self ..) tag htag
        · exact hG.tags frame (List.mem_cons_of_mem _ hframe) tag htag
    · cases hrun

end Types

end Typing
end MiniC
