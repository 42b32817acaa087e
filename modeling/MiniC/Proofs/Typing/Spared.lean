import MiniC.Proofs.Typing.Traces
/-!
What an analysis leaves alone. Main statements: whatever fails on the way, a run changes what is kept for
struct specifiers only where they stand in its tree, and in the end it is out of every scope, loop and
function that it has entered.
-/
namespace MiniC.Typing

open Syntax Check

/-- Outside these struct specifiers nothing is kept that was not kept before, and the scopes, loops and
functions around are the same. -/
structure Spared (L : List StructSpec) (s s' : State) : Prop where
  specs : ∀ id, (∀ spec ∈ L, spec.id ≠ id) → s'.specs[id]? = s.specs[id]?
  outer : s'.scope.outer = s.scope.outer
  loops : s'.loopDepth = s.loopDepth
  returns : s.returns = none → s'.returns = none

variable {L L' : List StructSpec} {s s' s'' : State}

theorem Spared.refl (s : State) : Spared L s s := ⟨fun _ _ => rfl, rfl, rfl, id⟩

theorem Spared.trans (h : Spared L s s') (k : Spared L s' s'') : Spared L s s'' where
  specs id hid := (k.specs id hid).trans (h.specs id hid)
  outer := k.outer.trans h.outer
  loops := k.loops.trans h.loops
  returns hnone := k.returns (h.returns hnone)

theorem Spared.mono (h : Spared L s s') (hL : L ⊆ L') : Spared L' s s' :=
  { h with specs := fun id hid => h.specs id fun spec hspec => hid spec (hL hspec) }

theorem Idle.spared (h : Idle s s') : Spared L s s' where
  specs id _ := by rw [h.specs]
  outer := h.outer
  loops := h.loops
  returns hnone := h.returns.trans hnone

/-- A check that leaves the rest alone. -/
def Spares {α : Type} (L : List StructSpec) (c : Check α) : Prop := ∀ s, Spared L s (outcome c s).2

section Rules

variable {α β : Type} {c : Check α}

theorem Idles.spares (h : Idles c) : Spares L c := fun s => (h s).spared

namespace Spares

theorem mono (h : Spares L c) (hL : L ⊆ L') : Spares L' c := fun s => (h s).mono hL

theorem bind {k : α → Check β} (hc : Spares L c) (hk : ∀ a, Spares L' (k a)) :
    Spares (L ++ L') (c >>= k) := by
  intro s
  have hfirst := (hc s).mono (List.subset_append_left L L')
  rw [outcome_bind]
  cases h : outcome c s with
  | mk v s' =>
    rw [h] at hfirst
    cases v with
    | ok a => exact hfirst.trans ((hk a s').mono (List.subset_append_right L L'))
    | error e => exact hfirst

/-- What follows meets no struct specifier. -/
theorem last {k : α → Check β} (hc : Spares L c) (hk : ∀ a, Spares [] (k a)) : Spares L (c >>= k) :=
  (hc.bind hk).mono (List.append_subset.mpr ⟨List.Subset.refl _, List.nil_subset _⟩)

theorem buildStruct (name : Option String) (ds : List MemberDecl) (span : Span) :
    Spares L (buildStruct name ds span) := fun s => by
  rw [outcome_buildStruct]
  exact ⟨fun _ _ => rfl, rfl, rfl, id⟩

theorem defineTag (tag : StructTag) (span : Span) : Spares L (enter (·.defineTag tag) span) := fun s => by
  rw [outcome_enter]
  unfold Scope.defineTag
  cases s.scope.inner.tag? tag.name <;> exact ⟨fun _ _ => rfl, rfl, rfl, id⟩

end Spares

end Rules

/-! What written types stand for. -/

mutual

theorem spares_resolveAt (depth : Nat) : ∀ ty, Spares ty.specs (resolveAt depth ty)
  | ⟨kind, _, span⟩ => by
    rw [resolveAt, TypeExpr.specs]
    exact ((idles_checkWritten depth span).spares (L := [])).bind fun _ =>
      spares_resolveKind depth span kind

theorem spares_resolveKind (depth : Nat) (span : Span) : ∀ kind,
    Spares kind.specs (resolveKind depth span kind)
  | .void => by
    rw [resolveKind]
    exact (Idles.pure _).spares
  | .int width signed => by
    rw [resolveKind]
    exact (Idles.registry_bind fun _ => .pure _).spares
  | .pointer inner => by
    rw [resolveKind, TypeKind.specs]
    exact (spares_resolveAt (depth + 1) inner).last fun _ => (Idles.pointerTo _ _).spares
  | .array element size => by
    rw [resolveKind, TypeKind.specs]
    refine (spares_resolveAt (depth + 1) element).last fun t =>
      (Idles.bind (idles_checkElement t element.span) fun _ => ?_).spares
    split
    · exact .arrayOf _ _ _
    · exact .throw _
  | .struct spec => by
    rw [resolveKind, TypeKind.specs]
    exact spares_resolveSpec depth spec

theorem spares_resolveSpec (depth : Nat) : ∀ spec, Spares spec.specs (resolveSpec depth spec)
  | ⟨id, name, members, span⟩ => by
    rw [resolveSpec, StructSpec.specs]
    have hbody := spares_resolveBody depth name span members
    have hinsert (t : TypeId) : Spares [⟨id, name, members, span⟩] (do
        modify fun s => { s with specs := s.specs.insert id t }
        return t) := by
      refine fun s => ⟨fun other hother => ?_, rfl, rfl, fun h => h⟩
      show (s.specs.insert id t)[other]? = _
      rw [Table.getElem?_insert, if_neg]
      simpa using hother _ (List.mem_singleton_self _)
    have hnew := (hbody.bind hinsert).mono (List.append_subset.mpr
      ⟨List.subset_cons_self ⟨id, name, members, span⟩ _, by simp⟩)
    intro s
    rw [outcome_get_bind]
    cases s.specs[id]? with
    | some t => exact .refl s
    | none => exact hnew s

theorem spares_resolveBody (depth : Nat) (tag : Option String) (span : Span) : ∀ body,
    Spares (specsOfBody body) (resolveBody depth tag span body)
  | some ms => by
    rw [resolveBody, specsOfBody]
    refine (spares_resolveMembers (depth + 1) ms).last fun ds =>
      (Spares.buildStruct tag ds span).last fun t => ?_
    cases tag with
    | none => exact (Idles.pure t).spares
    | some name => exact (Spares.defineTag ⟨name, t, span⟩ span).last fun _ => (Idles.pure t).spares
  | none => by
    rw [resolveBody]
    refine (Idles.get_bind fun s => ?_).spares
    split
    · exact .pure _
    · exact .throw _

theorem spares_resolveMembers (depth : Nat) : ∀ ms,
    Spares (specsOfMembers ms) (resolveMembers depth ms)
  | [] => by
    rw [resolveMembers]
    exact (Idles.pure _).spares
  | m :: ms => by
    rw [resolveMembers, specsOfMembers]
    exact (spares_resolveMember depth m).bind fun _ =>
      (spares_resolveMembers depth ms).last fun _ => (Idles.pure _).spares

theorem spares_resolveMember (depth : Nat) : ∀ m, Spares m.specs (resolveMember depth m)
  | ⟨name, ty, span⟩ => by
    rw [resolveMember, StructMember.specs]
    exact (spares_resolveAt depth ty).last fun _ =>
      Idles.spares (.registry_bind fun _ => .guard (.throw _) (.pure _))

end

theorem spares_findType (x : Written) : Spares x.specs (findType x) := by
  cases x with
  | value ty => exact spares_resolveAt 1 ty
  | struct spec => exact spares_resolveSpec 1 spec
  | object ty init =>
    obtain ⟨kind, qualifiers, span⟩ := ty
    unfold findType resolveObject
    cases kind with
    | array element size =>
      rw [Written.specs, TypeExpr.specs, TypeKind.specs]
      cases size with
      | some length => exact (spares_resolveAt 1 _).mono (by rw [TypeExpr.specs, TypeKind.specs]; simp)
      | none =>
        simp only
        cases impliedLength? init with
        | none => exact (Idles.throw _).spares
        | some length =>
          exact (spares_resolveAt 2 element).last fun t =>
            (Idles.bind (idles_checkElement t element.span) fun _ => .arrayOf _ _ _).spares
    | void | int | pointer | struct => exact spares_resolveAt 1 _
  | param ty =>
    obtain ⟨kind, qualifiers, span⟩ := ty
    unfold findType resolveParam
    cases kind with
    | array element size =>
      rw [Written.specs, TypeExpr.specs, TypeKind.specs]
      exact (spares_resolveAt 2 element).last fun t => (Idles.pointerTo _ _).spares
    | void | int | pointer | struct => exact spares_resolveAt 1 _

/-! Runs. -/

/-- A run in a scope of its own ends in the scope around it. -/
theorem Spared.leave (h : Spared L { s with scope := s.scope.push } s') :
    s'.scope.pop = s.scope := by
  have houter : s'.scope.outer = s.scope.inner :: s.scope.outer := h.outer
  rw [Scope.pop, Scope.pop?, houter]
  rfl

theorem Steps.spared {tr : Trace} (h : Steps tr s s') : Spared (tr.all.flatMap Written.specs) s s' := by
  have hfound {x : Written} {v : Verdict TypeId} {s s₀ s₁ s' : State} {L : List StructSpec}
      (hi : Idle s s₀) (hfind : outcome (findType x) s₀ = (v, s₁)) (hrest : Spared L s₁ s') :
      Spared (x.specs ++ L) s s' := by
    have hx := spares_findType x s₀
    rw [hfind] at hx
    exact hi.spared.trans ((hx.mono (List.subset_append_left _ _)).trans
      (hrest.mono (List.subset_append_right _ _)))
  induction h with
  | done hi => exact hi.spared
  | found hi hfind _ ih | failed hi hfind _ ih =>
    rw [Trace.all, List.flatMap_cons]
    exact hfound hi hfind ih
  | recorded hi _ ih =>
    rw [Trace.all]
    exact hi.spared.trans ⟨ih.specs, ih.outer, ih.loops, ih.returns⟩
  | @scope inner rest s s₀ s₁ s' hi _ _ ihi ih =>
    rw [Trace.all, List.flatMap_append]
    have hleft : Spared (inner.all.flatMap Written.specs) s₀ { s₁ with scope := s₁.scope.pop } :=
      ⟨ihi.specs, congrArg Scope.outer ihi.leave, ihi.loops, ihi.returns⟩
    exact hi.spared.trans ((hleft.mono (List.subset_append_left _ _)).trans
      (ih.mono (List.subset_append_right _ _)))
  | @loop inner rest s s₀ s₁ s' hi _ _ ihi ih =>
    rw [Trace.all, List.flatMap_append]
    have hleft : Spared (inner.all.flatMap Written.specs) s₀ { s₁ with loopDepth := s₁.loopDepth - 1 } :=
      ⟨ihi.specs, ihi.outer, congrArg (· - 1) ihi.loops, ihi.returns⟩
    exact hi.spared.trans ((hleft.mono (List.subset_append_left _ _)).trans
      (ih.mono (List.subset_append_right _ _)))
  | @function ret inner rest s s₀ s₁ s' hi _ _ ihi ih =>
    rw [Trace.all, List.flatMap_append]
    have hleft : Spared (inner.all.flatMap Written.specs) s₀ { s₁ with returns := none } :=
      ⟨ihi.specs, ihi.outer, ihi.loops, fun _ => rfl⟩
    exact hi.spared.trans ((hleft.mono (List.subset_append_left _ _)).trans
      (ih.mono (List.subset_append_right _ _)))

theorem Walks.spared {β τ : Type} {K : List (Written × TypeId)} {act : Analysis (τ × Verdict β)}
    {o : Script} {N : τ → List (Written × TypeId)} (h : Walks K act o N) (s : State) :
    Spared o.specs s (act s).2 := by
  obtain ⟨tr, hsteps, hall, -⟩ := h s
  refine hsteps.spared.mono fun spec hspec => ?_
  obtain ⟨x, hx, hspec⟩ := List.mem_flatMap.mp hspec
  exact List.mem_flatMap.mpr ⟨x, hall hx, hspec⟩

/-- Outside all scopes, loops and functions. -/
structure AtRest (s : State) : Prop where
  outer : s.scope.outer = []
  loops : s.loopDepth = 0
  returns : s.returns = none

theorem atRest_topDecls (config : Layout.Config) (ds : List TopDecl) :
    AtRest (topDecls ds (State.initial config)).2 := by
  have h := (walks_topDecls [] ds).spared (State.initial config)
  exact ⟨h.outer, h.loops, h.returns rfl⟩

/-- Whatever stands in a body, the function is left with the scopes that it was entered with. -/
theorem spared_functionBody (ret : TypeId) (ps : List ParamDecl) (body : Block) (s : State) :
    let s' := (functionBody ret ps body s).2
    Spared body.script.specs s s' ∧ s'.scope = s.scope ∧ s'.returns = none := by
  have hwalks : Walks [] (do
      let defined ← outcome (defineParams ps)
      andThen defined body (block true body)) body.script fun b => claimsOf (Node.ofItems b.items) :=
    .check (idles_defineParams ps) (fun _ _ => walks_block [] true body)
      fun e => .still fun _ => ⟨_, e, rfl⟩
  have h := hwalks.spared { s with returns := some ret, scope := s.scope.push }
  have hscope := h.leave (s := { s with returns := some ret })
  exact ⟨⟨h.specs, congrArg Scope.outer hscope, h.loops, fun _ => rfl⟩, hscope, rfl⟩

end MiniC.Typing
