import MiniC.Proofs.Lowering.Functions
/-!
The objects of a module. Main statement: the globals are made from the variables that were declared, in
order, and each datum is a text under the label of its place.
-/
namespace MiniC

/-- The variables that a declaration in a file makes. -/
def Syntax.TopDecl.variables : Syntax.TopDecl → List Syntax.VarDecl
  | .declaration d => d.kind.declared
  | .function _ => []

namespace Lowering

open Code (Function Global Module)
open Syntax

section Texts

variable {r : Registry} {s s' : State}

theorem grows_receiveAll (index : Nat) (ps : List Code.Param) :
    Grows List.tail (receiveAll r index ps) := by
  induction ps generalizing index with
  | nil => exact .pure ()
  | cons p ps ih =>
    refine .bind ?_ fun _ => ih (index + 1)
    exact (Grows.define _).bind fun incoming => (grows_allocate r p.ty).bind fun slot =>
      .ite ((grows_copy r _ _).bind fun _ => .bindName _ _)
        ((grows_store r _ _).bind fun _ => .bindName _ _)

/-- A function adds texts only. -/
theorem texts_function {f : FuncDecl} {body : Block} {g : Function}
    (h : function r f body s = .ok (g, s')) :
    ∀ n d, s'.data[n]? = some d → s.data[n]? = some d ∨ d.label = textLabel n := by
  obtain ⟨returns, s₁, hreturns, h⟩ := bind_eq_ok.mp h
  obtain ⟨qs, s₂, hparams, h⟩ := bind_eq_ok.mp h
  obtain ⟨⟨⟩, s₃, henter, h⟩ := bind_eq_ok.mp h
  obtain ⟨⟨⟩, s₄, hreceive, h⟩ := bind_eq_ok.mp h
  obtain ⟨⟨⟩, s₅, hitems, h⟩ := bind_eq_ok.mp h
  obtain ⟨⟨⟩, s₆, hret, h⟩ := bind_eq_ok.mp h
  obtain ⟨s₇, _, hget, h⟩ := bind_eq_ok.mp h
  obtain ⟨-, rfl⟩ := pure_eq_ok.mp h
  cases hget
  cases henter
  obtain ⟨-, rfl⟩ := need_eq_ok.mp hreturns
  obtain ⟨-, rfl⟩ := lift_eq_ok.mp hparams
  have hreceived := grows_receiveAll 0 qs _ _ _ hreceive
  have hbody := grows_blockItems ⟨r, returns, none, none⟩ body.items _ _ _ hitems
  have hreturned : Extends List.tail s₅ s₆ := Grows.emit _ _ _ _ hret
  exact (hreceived.trans (hbody.trans hreturned)).texts

theorem texts_topDecls {ds : List TopDecl} {functions : List Function} {gs : List Global}
    (h : topDecls r ds s = .ok ((functions, gs), s')) :
    ∀ n d, s'.data[n]? = some d → s.data[n]? = some d ∨ d.label = textLabel n := by
  induction ds generalizing s functions gs with
  | nil =>
    rw [topDecls] at h
    obtain ⟨-, rfl⟩ := pure_eq_ok.mp h
    exact fun _ _ hd => .inl hd
  | cons d ds ih =>
    cases d with
    | declaration d =>
      rw [topDecls] at h
      obtain ⟨here, s₁, hhere, h₁⟩ := bind_eq_ok.mp h
      obtain ⟨-, rfl⟩ := lift_eq_ok.mp hhere
      obtain ⟨later, s₂, hlater, h₂⟩ := bind_eq_ok.mp h₁
      obtain ⟨-, rfl⟩ := pure_eq_ok.mp h₂
      exact ih hlater
    | function f =>
      rw [topDecls] at h
      cases hbody : f.body with
      | none =>
        simp only [hbody] at h
        exact ih h
      | some body =>
        simp only [hbody] at h
        obtain ⟨here, s₁, hhere, h⟩ := bind_eq_ok.mp h
        obtain ⟨later, s₂, hlater, h⟩ := bind_eq_ok.mp h
        obtain ⟨-, rfl⟩ := pure_eq_ok.mp h
        exact fun n d hd => (ih hlater n d hd).elim (texts_function hhere n d) .inr

end Texts

/-- What a module has for a variable. -/
structure Holds (r : Registry) (v : VarDecl) (g : Global) : Prop where
  name : g.name = v.name
  resolved : v.resolved.isSome = true
  size : ∀ t, v.resolved = some t → g.size = r.sizeOf t
  image : ∀ t i, v.resolved = some t → v.init = some i →
    ∃ bytes, Static.image r t i = .ok bytes ∧ g.image = some bytes
  blank : v.init = none → g.image = none

section Globals

variable {r : Registry} {s s' : State}

theorem holds_globalOf {v : VarDecl} {g : Global} (h : globalOf r v = .ok g) : Holds r v g := by
  have hname := globalOf_eq_ok h
  unfold globalOf at h
  cases hresolved : v.resolved with
  | none => simp only [hresolved] at h; cases h
  | some ty =>
    simp only [hresolved] at h
    cases hinit : v.init with
    | none =>
      simp only [hinit] at h
      cases h
      refine ⟨hname, by simp [hresolved], fun t ht => ?_, fun t i _ hi => ?_, fun _ => rfl⟩
      · cases hresolved.symm.trans ht
        rfl
      · cases hinit.symm.trans hi
    | some init =>
      simp only [hinit] at h
      cases himage : Static.image r ty init with
      | error e => rw [himage] at h; cases h
      | ok image =>
        rw [himage] at h
        cases h
        refine ⟨hname, by simp [hresolved], fun t ht => ?_, fun t i ht hi => ?_, fun hnone => ?_⟩
        · cases hresolved.symm.trans ht
          rfl
        · cases hresolved.symm.trans ht
          cases hinit.symm.trans hi
          exact ⟨image, himage, rfl⟩
        · cases hinit.symm.trans hnone

theorem holds_globals {kind : DeclKind} {gs : List Global} (h : globals r kind = .ok gs) :
    List.Forall₂ (Holds r) kind.declared gs := by
  cases kind with
  | struct spec =>
    cases h
    exact .nil
  | vars vs => exact (forall₂_of_mapM h).imp fun _ _ => holds_globalOf

theorem holds_topDecls {ds : List TopDecl} {functions : List Function} {gs : List Global}
    (h : topDecls r ds s = .ok ((functions, gs), s')) :
    List.Forall₂ (Holds r) (ds.flatMap TopDecl.variables) gs := by
  induction ds generalizing s functions gs with
  | nil =>
    rw [topDecls] at h
    obtain ⟨h, -⟩ := pure_eq_ok.mp h
    cases h
    exact .nil
  | cons d ds ih =>
    cases d with
    | declaration d =>
      rw [topDecls] at h
      obtain ⟨here, s₁, hhere, h₁⟩ := bind_eq_ok.mp h
      obtain ⟨hglobals, rfl⟩ := lift_eq_ok.mp hhere
      obtain ⟨⟨functions', later⟩, s₂, hlater, h₂⟩ := bind_eq_ok.mp h₁
      obtain ⟨heq, rfl⟩ := pure_eq_ok.mp h₂
      cases heq
      exact List.rel_append (holds_globals hglobals) (ih hlater)
    | function f =>
      rw [topDecls] at h
      cases hbody : f.body with
      | none =>
        simp only [hbody] at h
        exact ih h
      | some body =>
        simp only [hbody] at h
        obtain ⟨here, s₁, hhere, h⟩ := bind_eq_ok.mp h
        obtain ⟨⟨functions', later⟩, s₂, hrest, h⟩ := bind_eq_ok.mp h
        obtain ⟨heq, rfl⟩ := pure_eq_ok.mp h
        cases heq
        exact ih hrest

end Globals

theorem objects_of_lower {r : Registry} {u : CompilationUnit} {m : Module} (h : lower r u = .ok m) :
    List.Forall₂ (Holds r) (u.decls.flatMap TopDecl.variables) m.globals ∧
      ∀ n d, m.data[n]? = some d → d.label = textLabel n := by
  unfold lower at h
  cases hrun : (topDecls r u.decls).run State.initial with
  | error e => rw [hrun] at h; cases h
  | ok result =>
    rw [hrun] at h
    obtain ⟨⟨functions, gs⟩, s⟩ := result
    cases h
    refine ⟨holds_topDecls hrun, fun n d hd => ?_⟩
    rw [Array.getElem?_toList] at hd
    exact (texts_topDecls hrun n d hd).resolve_left nofun

end Lowering

end MiniC
