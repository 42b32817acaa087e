import MiniC.Proofs.Typing.Steps
/-!
The steps of each analysis. Main statements, one for each form of the tree: the run takes only steps
that its script asks for, and without failures it takes all of them, and has found the types that are
then in the tree.
-/
namespace MiniC.Typing

open Syntax Check

/-- What is written, without the initializer that may give an array its length. -/
def bare : Written → Written
  | .object ty _ => .object ty none
  | x => x

def claimsOfParams (ps : List ParamDecl) : List (Written × TypeId) :=
  ps.flatMap fun p => (p.resolved.map fun t => (.param p.ty, t)).toList

/-- The types that a tree has for what is written in it. -/
def Node.claims : Node → List (Written × TypeId)
  | .expr ⟨.cast ty _, _, some t⟩ => [(.value ty, t)]
  | .expr _ => []
  | .var v => (v.resolved.map fun t => (.object v.ty none, t)).toList
  | .function f =>
    (f.resolvedReturn.map fun t => (.value f.returns, t)).toList ++ claimsOfParams f.params

def claimsOf (ns : List Node) : List (Written × TypeId) := ns.flatMap Node.claims

def Trace.claims (tr : Trace) : List (Written × TypeId) := tr.pairs.map fun p => (bare p.1, p.2)

@[simp]
theorem claimsOf_nil : claimsOf [] = [] := rfl

@[simp]
theorem claimsOf_cons (n : Node) (ns : List Node) : claimsOf (n :: ns) = n.claims ++ claimsOf ns := rfl

@[simp]
theorem claimsOf_append (ns ns' : List Node) : claimsOf (ns ++ ns') = claimsOf ns ++ claimsOf ns' :=
  List.flatMap_append

@[simp]
theorem Trace.claims_append (tr tr' : Trace) : (tr.append tr').claims = tr.claims ++ tr'.claims := by
  simp [Trace.claims]

/-- A run takes only steps that the script asks for. If it succeeds without failures it takes all of
them, and what its tree claims is known before or found on the way. -/
def Walks {τ β : Type} (K : List (Written × TypeId)) (act : Analysis (τ × Verdict β)) (o : Script)
    (N : τ → List (Written × TypeId)) : Prop :=
  ∀ s, ∃ tr, Steps tr s (act s).2 ∧ tr.all ⊆ o.all ∧
    ∀ t b, (act s).1 = (t, .ok b) → tr.errors = [] → Enacts tr o ∧ N t ⊆ tr.claims ++ K

/-- A run that does not succeed, or not without failures. -/
def Breaks {τ β : Type} (act : Analysis (τ × Verdict β)) (o : Script) : Prop :=
  ∀ s, ∃ tr, Steps tr s (act s).2 ∧ tr.all ⊆ o.all ∧
    ∀ t b, (act s).1 = (t, .ok b) → tr.errors ≠ []

section Rules

variable {α β γ τ σ : Type} {K : List (Written × TypeId)} {o o' : Script}
  {N : τ → List (Written × TypeId)} {N' : σ → List (Written × TypeId)}

namespace Breaks

theorem still {act : Analysis (τ × Verdict β)} (h : ∀ s, ∃ t e, act s = ((t, .error e), s)) :
    Breaks act o := fun s => by
  obtain ⟨t, e, hrun⟩ := h s
  rw [hrun]
  exact ⟨.done, .done (.refl s), List.nil_subset _, nofun⟩

theorem recorded {k : PUnit → Analysis (τ × Verdict β)} (e : TypingError) (hk : Walks K (k ⟨⟩) o N) :
    Breaks (record e >>= k) o := fun s => by
  obtain ⟨tr, hsteps, hall, -⟩ := hk { s with errors := s.errors.push e }
  exact ⟨.recorded e tr, .recorded (.refl s) hsteps, hall, fun _ _ _ => nofun⟩

end Breaks

namespace Walks

theorem pure {t : τ} {v : Verdict β} (h : ∀ b, v = .ok b → N t ⊆ K) :
    Walks K (Pure.pure (t, v)) .done N := fun s =>
  ⟨.done, .done (.refl s), List.nil_subset _, fun t' b heq _ => by
    cases heq
    exact ⟨.done, h b rfl⟩⟩

theorem mono {K' : List (Written × TypeId)} {act : Analysis (τ × Verdict β)}
    {M : τ → List (Written × TypeId)} (h : Walks K' act o M)
    (hN : ∀ t, N t ⊆ M t) (hK : K' ⊆ K) : Walks K act o N := fun s => by
  obtain ⟨tr, hsteps, hall, hclean⟩ := h s
  refine ⟨tr, hsteps, hall, fun t b heq hc => ?_⟩
  obtain ⟨henacts, hM⟩ := hclean t b heq hc
  exact ⟨henacts, fun c hc => by
    rcases List.mem_append.mp (hM (hN t hc)) with h | h
    · exact List.mem_append_left _ h
    · exact List.mem_append_right _ (hK h)⟩

theorem bind {x : Analysis (τ × Verdict β)} {k : τ × Verdict β → Analysis (σ × Verdict γ)}
    (hx : Walks K x o N) (hk : ∀ t b, Walks (N t ++ K) (k (t, .ok b)) o' N')
    (hf : ∀ t e, Breaks (k (t, .error e)) o') : Walks K (x >>= k) (o.append o') N' := fun s => by
  obtain ⟨tr, hsteps, hall, hclean⟩ := hx s
  obtain ⟨⟨⟨t, v⟩, s₁⟩, hrun⟩ : ∃ y, x s = y := ⟨_, rfl⟩
  rw [run_bind hrun]
  rw [hrun] at hsteps hclean
  have hboth {tr' : Trace} (hall' : tr'.all ⊆ o'.all) : (tr.append tr').all ⊆ (o.append o').all := by
    rw [Trace.all_append, Script.all_append]
    exact List.append_subset.mpr ⟨List.Subset.trans hall (List.subset_append_left _ _),
      List.Subset.trans hall' (List.subset_append_right _ _)⟩
  cases v with
  | error e =>
    obtain ⟨tr', hsteps', hall', hclean'⟩ := hf t e s₁
    refine ⟨tr.append tr', hsteps.append hsteps', hboth hall', fun u c heq hc => ?_⟩
    rw [Trace.errors_append] at hc
    exact absurd (List.append_eq_nil_iff.mp hc).2 (hclean' u c heq)
  | ok b =>
    obtain ⟨tr', hsteps', hall', hclean'⟩ := hk t b s₁
    refine ⟨tr.append tr', hsteps.append hsteps', hboth hall', fun u c heq hc => ?_⟩
    rw [Trace.errors_append, List.append_eq_nil_iff] at hc
    obtain ⟨henacts, hN⟩ := hclean t b rfl hc.1
    obtain ⟨henacts', hN'⟩ := hclean' u c heq hc.2
    refine ⟨henacts.append henacts', fun p hp => ?_⟩
    have hp := hN' hp
    simp only [List.mem_append, Trace.claims_append] at hp ⊢
    rcases hp with hp | hp | hp
    · exact .inl (.inr hp)
    · have hp := List.mem_append.mp (hN hp)
      exact hp.imp .inl id
    · exact .inr hp

/-- What follows takes no steps. -/
theorem last {x : Analysis (τ × Verdict β)} {k : τ × Verdict β → Analysis (σ × Verdict γ)}
    (hx : Walks K x o N) (hk : ∀ t b, Walks (N t ++ K) (k (t, .ok b)) .done N')
    (hf : ∀ t e, Breaks (k (t, .error e)) .done) : Walks K (x >>= k) o N' := by
  have h := hx.bind hk hf
  rwa [Script.append_done] at h

/-- A check on the way. -/
theorem check {c : Check α} {k : Verdict α → Analysis (σ × Verdict γ)} (hc : Idles c)
    (hk : ∀ a, (∃ s s', outcome c s = (.ok a, s')) → Walks K (k (.ok a)) o N')
    (hf : ∀ e, Breaks (k (.error e)) o) :
    Walks K (outcome c >>= k) o N' := fun s => by
  have hidle := hc s
  obtain ⟨⟨v, s₁⟩, hrun⟩ : ∃ y, outcome c s = y := ⟨_, rfl⟩
  rw [run_bind hrun]
  rw [hrun] at hidle
  cases v with
  | error e =>
    obtain ⟨tr, hsteps, hall, hclean⟩ := hf e s₁
    refine ⟨tr, hsteps.after hidle, hall, fun u c heq hc => absurd hc (hclean u c heq)⟩
  | ok a =>
    obtain ⟨tr, hsteps, hall, hclean⟩ := hk a ⟨s, s₁, hrun⟩ s₁
    exact ⟨tr, hsteps.after hidle, hall, hclean⟩

/-- A type that is looked for, and a check of what is found. -/
theorem find {x : Written} {f : TypeId → Check α} {k : Verdict α → Analysis (σ × Verdict γ)}
    (hf : ∀ t, Idles (f t))
    (hk : ∀ t a, (∃ s s', outcome (f t) s = (.ok a, s')) → Walks ((bare x, t) :: K) (k (.ok a)) o N')
    (hbreak : ∀ e, Breaks (k (.error e)) o) :
    Walks K (outcome (findType x >>= f) >>= k) (.written x o) N' := fun s => by
  obtain ⟨⟨v, s₁⟩, hfind⟩ : ∃ y, outcome (findType x) s = y := ⟨_, rfl⟩
  have hcheck := outcome_bind (findType x) f s
  rw [hfind] at hcheck
  cases v with
  | error e =>
    rw [run_bind hcheck]
    obtain ⟨tr, hsteps, hall, hclean⟩ := hbreak e s₁
    exact ⟨.failed x tr, .failed (.refl s) hfind hsteps, List.cons_subset_cons _ hall,
      fun u c heq hc => absurd hc (hclean u c heq)⟩
  | ok t =>
    have hidle := hf t s₁
    obtain ⟨⟨w, s₂⟩, hrun⟩ : ∃ y, outcome (f t) s₁ = y := ⟨_, rfl⟩
    replace hcheck := hcheck.trans hrun
    rw [run_bind hcheck]
    rw [hrun] at hidle
    cases w with
    | error e =>
      obtain ⟨tr, hsteps, hall, hclean⟩ := hbreak e s₂
      refine ⟨.found x t tr, .found (.refl s) hfind (hsteps.after hidle),
        List.cons_subset_cons _ hall, fun u c heq hc => absurd hc (hclean u c heq)⟩
    | ok a =>
      obtain ⟨tr, hsteps, hall, hclean⟩ := hk t a ⟨s₁, s₂, hrun⟩ s₂
      refine ⟨.found x t tr, .found (.refl s) hfind (hsteps.after hidle),
        List.cons_subset_cons _ hall, fun u c heq hc => ?_⟩
      obtain ⟨henacts, hN⟩ := hclean u c heq hc
      refine ⟨.found henacts, fun p hp => ?_⟩
      have hp := hN hp
      simp only [Trace.claims, Trace.pairs, List.map_cons, List.mem_append, List.mem_cons] at hp ⊢
      tauto

/-- A type that is looked for and taken as it is. -/
theorem found {x : Written} {k : Verdict TypeId → Analysis (σ × Verdict γ)}
    (hk : ∀ t, Walks ((bare x, t) :: K) (k (.ok t)) o N') (hbreak : ∀ e, Breaks (k (.error e)) o) :
    Walks K (outcome (findType x) >>= k) (.written x o) N' := by
  rw [← bind_pure (findType x)]
  refine find (fun t => .pure t) (fun t a ht => ?_) hbreak
  obtain ⟨s, s', ht⟩ := ht
  cases ht
  exact hk t

theorem fail {act : Analysis (τ × Verdict β)} (h : Breaks act o) : Walks K act o N := fun s => by
  obtain ⟨tr, hsteps, hall, hclean⟩ := h s
  exact ⟨tr, hsteps, hall, fun t b heq hc => absurd hc (hclean t b heq)⟩

theorem get_bind {k : State → Analysis (σ × Verdict γ)} (hk : ∀ s, Walks K (k s) o N') :
    Walks K (get >>= k) o N' := fun s => hk s s

theorem typed {kind : ExprKind} {span : Span} {before : Option TypeId} {c : Check TypeId}
    {N : Expr → List (Written × TypeId)} (hc : Idles c)
    (h : ∀ t, (∃ s s', outcome c s = (.ok t, s')) → N ⟨kind, span, some t⟩ ⊆ K) :
    Walks K (typed kind span before c) .done N :=
  check hc (fun t ht => pure fun _ _ => h t ht) fun e => .still fun _ => ⟨_, e, rfl⟩

theorem memberExpr {kind : Option MemberRef → ExprKind} {span : Span} {before : Option TypeId}
    {old : Option MemberRef} {c : Check MemberRef} {N : Expr → List (Written × TypeId)}
    (hc : Idles c) (h : ∀ m, N ⟨kind (some m), span, some m.ty⟩ ⊆ K) :
    Walks K (memberExpr kind span before old c) .done N :=
  check hc (fun m _ => pure fun _ _ => h m) fun e => .still fun _ => ⟨_, e, rfl⟩

theorem folded {kind : ExprKind} {span : Span} {before : Option TypeId} {c : Check Nat}
    {N : Expr → List (Written × TypeId)} (hc : Idles c)
    (h : ∀ n t, N ⟨.integer n, span, some t⟩ ⊆ K) :
    Walks K (folded kind span before c) .done N :=
  check hc (fun _ _ => get_bind fun _ => pure fun _ _ => h _ _) fun e => .still fun _ => ⟨_, e, rfl⟩

theorem finish {c : Check γ} {u : σ} (hc : Idles c) (h : N' u ⊆ K) :
    Walks K (outcome c >>= fun v => Pure.pure (u, v)) .done N' :=
  check hc (fun _ _ => pure fun _ _ => h) fun e => .still fun _ => ⟨_, e, rfl⟩

theorem inScope {act : Analysis (τ × Verdict β)} (h : Walks K act o N) :
    Walks K (inScope act) (.scope o .done) N := fun s => by
  obtain ⟨tr, hsteps, hall, hclean⟩ := h { s with scope := s.scope.push }
  refine ⟨.scope tr .done, .scope (.refl s) hsteps (.done (.refl _)), ?_, fun t b heq hc => ?_⟩
  · simpa [Trace.all, Script.all] using hall
  · obtain ⟨henacts, hN⟩ := hclean t b heq (by simpa [Trace.errors] using hc)
    exact ⟨.scope henacts .done, by simpa [Trace.claims, Trace.pairs] using hN⟩

theorem doWhile {act : Analysis (τ × Verdict β)} (h : Walks K act (o.append o') N) :
    Walks K act (.doWhile o' o .done) N := fun s => by
  obtain ⟨tr, hsteps, hall, hclean⟩ := h s
  refine ⟨tr, hsteps, fun x hx => ?_, fun t b heq hc => ?_⟩
  · have hx := hall hx
    simp only [Script.all_append, Script.all, List.append_nil, List.mem_append] at hx ⊢
    exact hx.symm
  · obtain ⟨henacts, hN⟩ := hclean t b heq hc
    refine ⟨.doWhile ?_, hN⟩
    rwa [Script.append_done]

theorem inLoop {act : Analysis (τ × Verdict β)} (h : Walks K act o N) :
    Walks K (inLoop act) o N := fun s => by
  obtain ⟨tr, hsteps, hall, hclean⟩ := h { s with loopDepth := s.loopDepth + 1 }
  refine ⟨.loop tr .done, .loop (.refl s) hsteps (.done (.refl _)), ?_, fun t b heq hc => ?_⟩
  · simpa [Trace.all, Script.all] using hall
  · obtain ⟨henacts, hN⟩ := hclean t b heq (by simpa [Trace.errors] using hc)
    have henacts := Enacts.loop henacts .done
    rw [Script.append_done] at henacts
    exact ⟨henacts, by simpa [Trace.claims, Trace.pairs] using hN⟩

/-- What a function body does apart from the result that it is to return. -/
theorem inFunction {act : Analysis (τ × Verdict β)} (ret : TypeId) (h : Walks K act o N) :
    Walks K (do
      modify ({ · with returns := some ret })
      let x ← act
      modify ({ · with returns := none })
      return x) o N := fun s => by
  obtain ⟨tr, hsteps, hall, hclean⟩ := h { s with returns := some ret }
  refine ⟨.function tr .done, .function (.refl s) hsteps (.done (.refl _)), ?_, fun t b heq hc => ?_⟩
  · simpa [Trace.all, Script.all] using hall
  · obtain ⟨henacts, hN⟩ := hclean t b heq (by simpa [Trace.errors] using hc)
    have henacts := Enacts.function henacts .done
    rw [Script.append_done] at henacts
    exact ⟨henacts, by simpa [Trace.claims, Trace.pairs] using hN⟩

end Walks

end Rules

end MiniC.Typing
