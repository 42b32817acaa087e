import MiniC.Proofs.Compilation.Safety
import MiniC.Proofs.Lowering.Accesses
import MiniC.Proofs.Lowering.Initial
/-!
Offsets in compiled code. Main statement: the place of an access path lies at the sum for the path, reduced
to a word, and all that the code loads and stores lies inside the object of a path, counted from there, or
inside an object that is accessed from its address on. Only the sum for a path whose subscripts are not
confined can fail to be a word.
-/
namespace MiniC

open Layout (maxObjectSize)
open Lowering (Accesses Grant Inner Roomy confined pathOffset)
open Typing (Node)

/-- What is added up to access so many bytes: part of a declared object, or of a struct that is a value, or
part of the object of a path. -/
inductive Lowering.Accrues (r : Registry) (ns : List Node) : Int → Nat → Prop where
  | object {k n : Nat} : k + n ≤ maxObjectSize → Accrues r ns k n
  | path {e : Syntax.Expr} {t : TypeId} {k n : Nat} : .expr e ∈ ns → e.ty = some t → k + n ≤ r.sizeOf t →
      Accrues r ns (pathOffset r e + k) n

namespace Lowering

variable {r : Registry} {ns : List Node} {z : Int} {n : Nat}

theorem roomy_natCast {k size : Nat} (h : k + size ≤ maxObjectSize) : Roomy k size := by
  have hmax : maxObjectSize = 2 ^ 63 - 1 := by decide
  unfold Roomy
  omega

/-- What is accrued is a word if all subscripts are confined. -/
theorem Accrues.word (h : Accrues r ns z n)
    (hroomy : ∀ e t, .expr e ∈ ns → e.ty = some t → Roomy (pathOffset r e) (r.sizeOf t)) : Word z := by
  cases h with
  | object hk =>
    obtain ⟨hlow, hhigh⟩ := roomy_natCast hk
    exact ⟨hlow, by omega⟩
  | path he ht hk => exact (hroomy _ _ he ht).word hk

/-- Memory may be accessed at what is accrued, reduced to a word. -/
def accrued (r : Registry) (ns : List Node) : Grant := fun o n => ∃ z, Accrues r ns z n ∧ o = Int64.ofInt z

theorem objects_accrued : (accrued r ns).Objects :=
  fun k _ hk => ⟨k, .object hk, (ofInt_natCast k).symm⟩

theorem reaches_accrued {G : List Symbol} (h : Typing.AllSensible ⟨r, G⟩ ns) :
    (accrued r ns).Reaches ⟨r, G⟩ ns := by
  refine fun n hn => ⟨h n hn, ?_⟩
  rintro e t rfl ht k m hk
  exact ⟨_, .path hn ht hk, rfl⟩

/-- A path that makes sense is lowered to the place at its sum. -/
theorem place_of_expr {G : List Symbol} {C : Typing.Site} {e : Syntax.Expr} {t : TypeId} {c : Context}
    (hc : c.registry.Consistent) (h : Typing.HasType ⟨c.registry, G⟩ C e t) {s s' : State} {p : Place}
    (hrun : expr c e s = .ok (.place p, s')) :
    p.ty = t ∧ p.offset = Int64.ofInt (pathOffset c.registry e) := by
  let everything : Grant := fun _ _ => True
  have hreaches : everything.Reaches ⟨c.registry, G⟩ (Node.ofExpr e) :=
    fun n hn => ⟨Typing.sensible_expr C t e h n hn, fun _ _ _ _ _ _ _ => trivial⟩
  have hcode := accesses_expr c hc (fun _ _ _ => trivial) e hreaches
  obtain ⟨-, hoffset, hty⟩ := hcode hrun fun _ _ _ _ _ => trivial
  exact ⟨Option.some.inj (hty.symm.trans h.ty_eq), hoffset⟩

end Lowering

/-- In a source that is accepted, the place of an access path lies at the sum for the path, which is exact
if the sum is a word, as it is if the subscripts on the path are confined; the items of an initializer lie
inside the variable, at offsets that are words; and what the code loads and stores lies at what is accrued,
which is exact throughout if all subscripts are confined. -/
theorem Compilation.offsets_accrued {layout : Layout.Config} {source : String}
    {tree : Syntax.CompilationUnit} {registry : Registry} {code : Code.Module}
    (h : (do check layout (← parse source)) = .ok (tree, registry))
    (hlower : Lowering.lower registry tree = .ok code) :
    (∀ e t, .expr e ∈ Node.ofUnit tree → e.ty = some t →
      (∀ c s p s', c.registry = registry → Lowering.expr c e s = .ok (.place p, s') →
        p.ty = t ∧ p.offset = Int64.ofInt (pathOffset registry e) ∧
          (p.offset.toInt = pathOffset registry e ↔ Word (pathOffset registry e))) ∧
      (confined registry e = true → Roomy (pathOffset registry e) (registry.sizeOf t))) ∧
    (∀ v t i, .var v ∈ Node.ofUnit tree → v.resolved = some t → v.init = some i →
      ∀ t' o i', Inner registry t 0 i t' o i' → o + registry.sizeOf t' ≤ registry.sizeOf t ∧
        Roomy o (registry.sizeOf t')) ∧
    ∀ g ∈ code.functions, ∀ i ∈ g.body, ∀ o n, i.access? = some (o, n) →
      ∃ z, Lowering.Accrues registry (Node.ofUnit tree) z n ∧ o = Int64.ofInt z ∧
        ((∀ e, .expr e ∈ Node.ofUnit tree → confined registry e = true) → o.toInt = z) := by
  obtain ⟨u, -, hcheck⟩ := Machine.except_bind_eq_ok.mp h
  obtain ⟨herrors, rfl, rfl⟩ := accepted_of_check hcheck
  obtain ⟨G, hsound, hunit⟩ := Typing.judged_of_analyze herrors
  have hc := hsound.consistent
  have hsensible := Typing.sensible_unit hunit
  have hreaches := Lowering.reaches_accrued hsensible
  have hroomy {e : Syntax.Expr} {t : TypeId} (he : .expr e ∈ Node.ofUnit (Typing.analyze layout u).tree)
      (ht : e.ty = some t) (hin : confined (Typing.analyze layout u).registry e = true) :
      Roomy (pathOffset (Typing.analyze layout u).registry e)
        ((Typing.analyze layout u).registry.sizeOf t) := by
    obtain ⟨C, t', htype⟩ := hsensible _ he
    obtain rfl : t = t' := Option.some.inj (ht.symm.trans htype.ty_eq)
    exact Lowering.roomy_path hc C t e htype hin
  refine ⟨fun e t he ht => ⟨fun c s p s' hregistry hrun => ?_, hroomy he ht⟩, ?_, ?_⟩
  · obtain ⟨C, t', htype⟩ := hsensible _ he
    obtain rfl : t = t' := Option.some.inj (ht.symm.trans htype.ty_eq)
    rw [← hregistry] at hc htype
    obtain ⟨hty, hoffset⟩ := Lowering.place_of_expr hc htype hrun
    rw [hregistry] at hoffset
    exact ⟨hty, hoffset, hoffset ▸ toInt_ofInt_eq_iff⟩
  · intro v t i hv ht hi t' o i' hinner
    obtain ⟨C, t₀, ht₀, -, hinit⟩ := hsensible _ hv
    obtain rfl : t = t₀ := Option.some.inj (ht.symm.trans ht₀)
    rw [hi] at hinit
    cases hinit with
    | some hinit =>
      obtain ⟨-, henclosed⟩ := hinner.enclosed hc hinit
      have hstop := henclosed.stop
      rw [Nat.zero_add] at hstop
      exact ⟨hstop, Lowering.roomy_natCast (hstop.trans (Lowering.sizeOf_le hc t))⟩
  · intro g hg i hi o n ho
    obtain ⟨z, hz, rfl⟩ :=
      Lowering.allows_of_lower hc Lowering.objects_accrued hreaches hlower g hg i hi o n ho
    refine ⟨z, hz, rfl, fun hall => toInt_ofInt_eq_iff.mpr (hz.word fun e t he ht => ?_)⟩
    exact hroomy he ht (hall e he)

/-- Whether some expression passes a test. -/
def Compilation.anyExpr (test : Syntax.Expr → Bool) (tree : Syntax.CompilationUnit) : Bool :=
  (Node.ofUnit tree).any fun
    | .expr e => test e
    | _ => false

theorem Compilation.exists_of_anyExpr {test : Syntax.Expr → Bool} {tree : Syntax.CompilationUnit}
    (h : anyExpr test tree = true) : ∃ e, .expr e ∈ Node.ofUnit tree ∧ test e = true := by
  obtain ⟨n, hn, htest⟩ := List.any_eq_true.mp h
  cases n with
  | expr e => exact ⟨e, hn, htest⟩
  | _ => cases htest

/-- An element in a member of an element, an initializer and a copy: all offsets are exact. -/
theorem Compilation.offsets_of_members :
    ∃ tree registry code, (do check ⟨.lp64, 64⟩ (← parse ("struct s { char c; int a[3]; } g[4]; " ++
        "int f(void) { struct s x = { 1, { 2 } }; g[3] = x; return g[2].a[1]; }"))) = .ok (tree, registry) ∧
      Lowering.lower registry tree = .ok code ∧
      (∃ e, .expr e ∈ Node.ofUnit tree ∧ pathOffset registry e = 40) ∧
      ∀ g ∈ code.functions, ∀ i ∈ g.body, ∀ o n, i.access? = some (o, n) →
        ∃ z, Lowering.Accrues registry (Node.ofUnit tree) z n ∧ o.toInt = z := by
  have hrun : (do check ⟨.lp64, 64⟩ (← parse ("struct s { char c; int a[3]; } g[4]; " ++
        "int f(void) { struct s x = { 1, { 2 } }; g[3] = x; return g[2].a[1]; }"))).toOption.map
      (fun x : Syntax.CompilationUnit × Registry => (anyExpr (fun e => pathOffset x.2 e == 40) x.1,
        anyExpr (fun e => !confined x.2 e) x.1)) = some (true, false) := by
    decide +kernel
  obtain ⟨⟨tree, registry⟩, hcheck, heq⟩ := Option.map_eq_some_iff.mp hrun
  obtain ⟨hsum, hconfined⟩ := Prod.mk.inj heq
  replace hcheck := ok_of_toOption hcheck
  obtain ⟨-, code, hlower⟩ := annotated_and_lowered hcheck
  obtain ⟨e, he, hforty⟩ := exists_of_anyExpr hsum
  refine ⟨tree, registry, code, hcheck, hlower, ⟨e, he, eq_of_beq hforty⟩, fun g hg i hi o n ho => ?_⟩
  obtain ⟨-, -, haccesses⟩ := offsets_accrued hcheck hlower
  obtain ⟨z, hz, -, hexact⟩ := haccesses g hg i hi o n ho
  refine ⟨z, hz, hexact fun e he => ?_⟩
  have hnone := List.any_eq_false.mp hconfined _ he
  simpa using hnone

/-- Two constant subscripts whose sum is no word: the code loads from an offset that is not the sum. -/
theorem Compilation.offset_of_subscripts_wraps :
    ∃ tree registry code, (do check ⟨.lp64, 64⟩ (← parse ("char a[2][1]; " ++
        "char f(void) { return a[9223372036854775807][9223372036854775807]; }"))) = .ok (tree, registry) ∧
      Lowering.lower registry tree = .ok code ∧
      (∃ e, .expr e ∈ Node.ofUnit tree ∧ pathOffset registry e = 18446744073709551614 ∧
        ¬ Word (pathOffset registry e)) ∧
      ∃ g ∈ code.functions, ∃ i ∈ g.body, i.access? = some (-2, 1) := by
  have hrun : (do check ⟨.lp64, 64⟩ (← parse ("char a[2][1]; " ++
        "char f(void) { return a[9223372036854775807][9223372036854775807]; }"))).toOption.bind
      (fun x : Syntax.CompilationUnit × Registry =>
        (Lowering.lower x.2 x.1).toOption.map fun m : Code.Module =>
          (anyExpr (fun e => pathOffset x.2 e == 18446744073709551614) x.1,
            m.functions.any fun g => g.body.any fun i => i.access? == some (-2, 1))) =
      some (true, true) := by
    decide +kernel
  obtain ⟨⟨tree, registry⟩, hcheck, hrun⟩ := Option.bind_eq_some_iff.mp hrun
  obtain ⟨code, hlower, heq⟩ := Option.map_eq_some_iff.mp hrun
  obtain ⟨hsum, haccess⟩ := Prod.mk.inj heq
  obtain ⟨e, he, hvalue⟩ := exists_of_anyExpr hsum
  have hvalue := eq_of_beq hvalue
  refine ⟨tree, registry, code, ok_of_toOption hcheck, ok_of_toOption hlower, ⟨e, he, hvalue, ?_⟩, ?_⟩
  · rw [hvalue]
    unfold Word
    omega
  · obtain ⟨g, hg, hbody⟩ := List.any_eq_true.mp haccess
    obtain ⟨i, hi, hi'⟩ := List.any_eq_true.mp hbody
    exact ⟨g, hg, i, hi, eq_of_beq hi'⟩

end MiniC
