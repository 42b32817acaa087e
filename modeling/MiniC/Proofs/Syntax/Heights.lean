import MiniC.Proofs.Syntax.Sources
/-!
How high expressions are. The levels of nesting are given back where a chain ends, and a whole chain is
then the first operand of the next one. Main statement: so an accepted source may hold an expression
that is higher than the levels, but none that is higher than quadratically many.
-/
namespace MiniC.Syntax

/-- No expression is higher than `h`. -/
def Demands.upTo (h : Nat) : Demands where
  node e := e.height ≤ h
  place _ := True
  read _ := True
  name _ := True

theorem sound_upTo : (Demands.upTo maxHeight).Sound where
  node _ hheight _ := hheight
  moved {e} _ he _ := e.height_eq.symm.trans_le he
  cover _ _ := trivial

theorem tokens_upTo (h : Nat) (source : String) : (Demands.upTo h).Tokens source where
  steps step _ := by
    cases step with
    | ok t => exact ⟨trivial, fun _ _ => trivial⟩
    | error e => trivial
  read := trivial
  stop := ⟨trivial, fun _ _ => trivial⟩

/-- The nesting limit bounds the height of every expression of an accepted source. -/
theorem height_le_of_parse {source : String} {u : CompilationUnit}
    (h : CompilationUnit.parse source = .ok u) : (Demands.upTo maxHeight).unit u :=
  (CompilationUnit.meets_parse sound_upTo (tokens_upTo maxHeight source)).1 u h

/-- The heights of the expressions that initialize the variables of a declaration. -/
def DeclKind.initialHeights : DeclKind → List Nat
  | .vars vs => vs.filterMap fun v =>
    match v.init with
    | some (.expr e) => some e.height
    | _ => none
  | .struct _ => []

def CompilationUnit.initialHeights (u : CompilationUnit) : List Nat :=
  u.decls.flatMap fun
    | .declaration d => d.kind.initialHeights
    | .function _ => []

theorem Demands.upTo_initialHeights {h : Nat} {u : CompilationUnit} (hu : (upTo h).unit u) :
    ∀ n ∈ u.initialHeights, n ≤ h := by
  intro n hn
  obtain ⟨d, hd, hn⟩ := List.mem_flatMap.mp hn
  have htop := hu d hd
  rcases d with ⟨kind, span⟩ | f
  · rcases kind with vs | spec
    · obtain ⟨v, hv, heq⟩ := List.mem_filterMap.mp hn
      have hvar := (upTo h).varDecls_iff.mp htop.2 v hv
      obtain ⟨name, ty, init, span, resolved⟩ := v
      split at heq
      · rename_i e hinit
        subst hinit
        cases heq
        exact ((upTo h).expr_iff.mp hvar.2.2.2).2.1
      · cases heq
    · cases hn
  · cases hn

/-- A chain of increments in parentheses, and another one behind them. -/
def tallSource : String :=
  "int y = (x" ++ String.join (List.replicate 64 "++") ++ ")" ++
    String.join (List.replicate 64 "++") ++ ";"

theorem heights_tallSource :
    ∃ u, CompilationUnit.parse tallSource = .ok u ∧ u.initialHeights = [129] := by
  have hparse : ((CompilationUnit.parse tallSource).toOption.map (·.initialHeights)) = some [129] := by
    decide +kernel
  obtain ⟨u, hu, hheights⟩ := Option.map_eq_some_iff.mp hparse
  cases hsource : CompilationUnit.parse tallSource with
  | error e =>
    rw [hsource] at hu
    cases hu
  | ok u' =>
    rw [hsource] at hu
    cases hu
    exact ⟨u, rfl, hheights⟩

/-- The two chains are one operand above the other. -/
theorem height_le_of_tallSource : ∃ u, CompilationUnit.parse tallSource = .ok u ∧
    u.initialHeights = [129] ∧ (Demands.upTo maxHeight).unit u := by
  obtain ⟨u, hu, hheights⟩ := heights_tallSource
  exact ⟨u, hu, hheights, height_le_of_parse hu⟩

/-- The levels themselves do not bound the height. -/
theorem not_height_le_maxNesting :
    ∃ u, CompilationUnit.parse tallSource = .ok u ∧ ¬ (Demands.upTo maxNesting).unit u := by
  obtain ⟨u, hu, hheights⟩ := heights_tallSource
  refine ⟨u, hu, fun hunit => ?_⟩
  have hle := Demands.upTo_initialHeights hunit 129 (hheights ▸ List.mem_singleton_self 129)
  exact absurd hle (by decide)

end MiniC.Syntax
