import MiniC.Compilation
import MiniC.Proofs.Code.Rewrites
import MiniC.Proofs.Lowering.Functions
import MiniC.Proofs.Lowering.Lowerable
import MiniC.Proofs.Machine.Safety
import MiniC.Proofs.Typing.Annotated
import MiniC.Proofs.Typing.JudgedUnits
import MiniC.Proofs.Typing.Units
/-!
Compiled code is well formed and never gets stuck. Main statements: at every level of optimization,
each function of an accepted source is well formed, and calls with the right number of arguments
end without a fault that code in order cannot have; and the tree of an accepted source is annotated
throughout, and code is found for it.
-/
namespace MiniC

open Code (Function Module Names Operand Orderly)
open Machine (Accepts Expected InOrder Loaded Routine Tidy)
open Syntax (TopDecl)
open Typing (namesOf)

/-- The stages that led to compiled code. -/
structure Compilation.Made (s : Settings) (source : String) (c : Compilation) where
  parsed : Syntax.CompilationUnit
  parsed_eq : parse source = .ok parsed
  accepted : (Typing.analyze s.layout parsed).errors = []
  lowered : Module
  lowered_eq : Lowering.lower (Typing.analyze s.layout parsed).registry
    (Typing.analyze s.layout parsed).tree = .ok lowered
  code_eq : c.code = lowered.optimize s.level

theorem errors_of_failure? {a : Typing.Analyzed} (h : a.failure? = none) : a.errors = [] := by
  unfold Typing.Analyzed.failure? at h
  split at h
  · assumption
  · cases h

theorem mapError_eq_ok {ε ε' α : Type} {f : ε → ε'} {x : Except ε α} {a : α}
    (h : x.mapError f = .ok a) : x = .ok a := by
  cases x with
  | error e => cases h
  | ok b => exact congrArg _ (Except.ok.inj h)

theorem ok_of_toOption {ε α : Type} {x : Except ε α} {a : α} (h : x.toOption = some a) :
    x = .ok a := by
  cases x <;> cases h
  rfl

theorem Compilation.made_of_ofSource {s : Settings} {source file : String} {c : Compilation}
    (h : ofSource s source file = .ok c) : Nonempty (Made s source c) := by
  unfold ofSource at h
  obtain ⟨-, -, h₁⟩ := Machine.except_bind_eq_ok.mp h
  obtain ⟨u, hparse, h₂⟩ := Machine.except_bind_eq_ok.mp h₁
  obtain ⟨⟨tree, registry⟩, hcheck, h₃⟩ := Machine.except_bind_eq_ok.mp h₂
  obtain ⟨m, hlower, h₄⟩ := Machine.except_bind_eq_ok.mp h₃
  unfold check at hcheck
  simp only at hcheck
  split at hcheck
  · cases hcheck
  · rename_i hfailure
    cases hcheck
    cases h₄
    exact ⟨u, hparse, errors_of_failure? hfailure, m, mapError_eq_ok hlower, rfl⟩

namespace Compilation.Made

variable {s : Settings} {source : String} {c : Compilation} (made : Made s source c)

def tree : Syntax.CompilationUnit := (Typing.analyze s.layout made.parsed).tree

theorem globals_eq : c.code.globals.map (·.name) = made.tree.decls.flatMap TopDecl.globals := by
  obtain ⟨hglobals, -⟩ := Lowering.lower_eq_ok made.lowered_eq
    (Typing.scoped_of_analyze made.accepted).2
  rw [made.code_eq]
  exact hglobals

/-- Every function of the code is orderly, and comes from a definition that takes as much. -/
theorem orderly_of_scoped {N : Names} (hscoped : ∀ d ∈ made.tree.decls, Syntax.Scoped.topDecl N d)
    {g : Function} (hg : g ∈ c.code.functions) :
    (∃ S, Orderly { N with arity := g.params.length } g.temps
      (c.code.data.map (·.label)) S g.body) ∧
      ∃ f, .function f ∈ made.tree.decls ∧ f.name = g.name ∧ f.params.length = g.params.length := by
  obtain ⟨-, hfunctions⟩ := Lowering.lower_eq_ok made.lowered_eq hscoped
  rw [made.code_eq] at hg ⊢
  obtain ⟨g₀, hg₀, rfl⟩ := List.mem_map.mp hg
  obtain ⟨f, hf, -, hmade⟩ := hfunctions g₀ hg₀
  obtain ⟨S, horderly⟩ := hmade.orderly
  have hleaves := Code.Pass.leaves_rounds (Code.Pass.ofLevel s.level) Code.Pass.maxRounds g₀
  rw [hleaves.params, hleaves.temps, hleaves.name]
  exact ⟨horderly.rewritten hleaves.rewrites, f, hf, hmade.name.symm, hmade.arity.symm⟩

theorem orderly {g : Function} (hg : g ∈ c.code.functions) :
    (∃ S, Orderly { namesOf made.tree with arity := g.params.length } g.temps
      (c.code.data.map (·.label)) S g.body) ∧
      ∃ f, .function f ∈ made.tree.decls ∧ f.name = g.name ∧ f.params.length = g.params.length :=
  made.orderly_of_scoped (Typing.scoped_of_analyze made.accepted).2 hg

include made in
theorem wellFormed {g : Function} (hg : g ∈ c.code.functions) : Code.WellFormed c.code g := by
  obtain ⟨⟨S, horderly⟩, -⟩ := made.orderly hg
  refine horderly.wellFormed (fun name hname => ?_) rfl
  rw [made.globals_eq]
  exact hname

/-- No function takes more arguments than it names. -/
def Fixed : Prop := ∀ d ∈ made.tree.decls, Typing.variadic d = false

/-- The program that is loaded from compiled code is in order. -/
theorem tidy {limits : Machine.Limits} {l : Loaded} (hload : Machine.load c.code limits = .ok l) :
    Tidy l.program made.Fixed := by
  obtain ⟨placements, memory, stack, hloads⟩ := Machine.loads_of_load hload
  obtain rfl := Except.ok.inj ((hloads.load_eq c.code.functions).symm.trans hload)
  intro name r hr
  obtain ⟨g, hg, rfl, rfl⟩ := Machine.mem_of_getElem?_routinesOf hr
  obtain ⟨⟨S, horderly⟩, -⟩ := made.orderly hg
  have hsymbol {name : String} (h : name ∈ c.code.globals.map (·.name) ++ c.code.data.map (·.label)) :
      (Machine.symbolsOf placements)[name]?.isSome :=
    Machine.isSome_symbolsOf (hloads.names ▸ h)
  refine InOrder.of_orderly horderly (fun name hname => hsymbol (List.mem_append_left _ ?_))
    (fun l hl => hsymbol (List.mem_append_right _ hl)) rfl fun hfixed name count hfits => ?_
  · rw [made.globals_eq]
    exact hname
  · obtain ⟨hassert, hfits⟩ := hfits
    refine ⟨hassert, fun r' hr' => ?_⟩
    obtain ⟨g', hg', rfl, rfl⟩ := Machine.mem_of_getElem?_routinesOf hr'
    obtain ⟨-, f, hf, hname, hlength⟩ := made.orderly hg'
    rw [(hfits f hf hname).2 (hfixed _ hf), hlength]
    rfl

theorem fixed_of_parsed (h : ∀ f, .function f ∈ made.parsed.decls → f.variadic = false) :
    made.Fixed := by
  have hvariadic := (Typing.scoped_of_analyze made.accepted).1
  intro d hd
  have hmem : Typing.variadic d ∈ made.parsed.decls.map Typing.variadic :=
    hvariadic ▸ List.mem_map_of_mem hd
  obtain ⟨d', hd', heq⟩ := List.mem_map.mp hmem
  rw [← heq]
  cases d' with
  | declaration d' => rfl
  | function f => exact h f hd'

end Compilation.Made

/-- Code of an accepted source is well formed at every level of optimization. A call with the right
number of arguments, in whatever state, finds every label and symbol that it needs; and if no
function is declared with more arguments than it names, no call in it is refused for their number. -/
theorem Compilation.wellFormed_and_safe {s : Settings} {source file : String} {c : Compilation}
    (h : ofSource s source file = .ok c) :
    (∀ f ∈ c.code.functions, Code.WellFormed c.code f) ∧
      ∀ limits l, Machine.load c.code limits = .ok l → ∀ state name args,
        Accepts l.program name args.length →
          (∀ label, (Machine.call l.program state name args).1 ≠ .error (.unknownLabel label)) ∧
          (∀ symbol, (Machine.call l.program state name args).1 ≠ .error (.undefinedSymbol symbol)) ∧
          (∀ u, parse source = .ok u → (∀ f, .function f ∈ u.decls → f.variadic = false) →
            ∀ callee expected got, (Machine.call l.program state name args).1 ≠
              .error (.argumentCount callee expected got)) := by
  obtain ⟨made⟩ := made_of_ofSource h
  refine ⟨fun f hf => made.wellFormed hf, fun limits l hload state name args haccepts => ?_⟩
  have hexpected := Machine.expected_call (made.tidy hload) state haccepts
  refine ⟨fun label heq => ?_, fun symbol heq => ?_, fun u hu hfixed callee expected got heq => ?_⟩
  · rw [heq] at hexpected
    exact hexpected
  · rw [heq] at hexpected
    exact hexpected
  · rw [heq] at hexpected
    obtain rfl := Except.ok.inj (made.parsed_eq.symm.trans hu)
    exact hexpected (made.fixed_of_parsed hfixed)

/-- A call of a function that returns its argument. -/
theorem Compilation.identity_wellFormed_and_safe :
    ∃ c, ofSource ⟨⟨.lp64, 64⟩, 0⟩ "int id(int a) { return a; }" "id.c" = .ok c ∧
      (∀ f ∈ c.code.functions, Code.WellFormed c.code f) ∧
      ∃ l, Machine.load c.code ⟨64, 4, 100⟩ = .ok l ∧ Accepts l.program "id" 1 ∧
        ∀ callee expected got, (Machine.call l.program l.state "id" [7]).1 ≠
          .error (.argumentCount callee expected got) := by
  have hrun : ((ofSource ⟨⟨.lp64, 64⟩, 0⟩ "int id(int a) { return a; }" "id.c").toOption.bind fun c =>
      (Machine.load c.code ⟨64, 4, 100⟩).toOption.bind fun l =>
        some (c.code.functions.map (·.params.length))) = some [1] := by decide +kernel
  have hparse : ((parse "int id(int a) { return a; }").toOption.map fun u =>
      u.decls.any Typing.variadic) = some false := by decide +kernel
  obtain ⟨c, hc, hl⟩ := Option.bind_eq_some_iff.mp hrun
  obtain ⟨l, hl, hlengths⟩ := Option.bind_eq_some_iff.mp hl
  obtain ⟨u, hu, hfixed⟩ := Option.map_eq_some_iff.mp hparse
  replace hc := ok_of_toOption hc
  replace hl := ok_of_toOption hl
  have haccepts : Accepts l.program "id" 1 := by
    refine ⟨by decide, fun r hr => ?_⟩
    obtain ⟨placements, memory, stack, hloads⟩ := Machine.loads_of_load hl
    obtain rfl := Except.ok.inj ((hloads.load_eq c.code.functions).symm.trans hl)
    obtain ⟨g, hg, -, rfl⟩ := Machine.mem_of_getElem?_routinesOf hr
    have hmem : g.params.length ∈ [1] :=
      Option.some.inj hlengths ▸ List.mem_map_of_mem (f := fun g : Code.Function => g.params.length) hg
    exact (List.mem_singleton.mp hmem).symm
  obtain ⟨hwell, hsafe⟩ := wellFormed_and_safe hc
  refine ⟨c, hc, hwell, l, hl, haccepts, ?_⟩
  refine (hsafe _ l hl l.state "id" [7] haccepts).2.2 u (ok_of_toOption hu) fun f hf => ?_
  have hall := List.any_eq_false.mp hfixed _ hf
  simpa [Typing.variadic] using hall

/-! What analysis accepts. -/

open Typing (AllAnnotated Node)

theorem accepted_of_check {layout : Layout.Config} {u tree : Syntax.CompilationUnit}
    {registry : Registry} (h : check layout u = .ok (tree, registry)) :
    (Typing.analyze layout u).errors = [] ∧ (Typing.analyze layout u).tree = tree ∧
      (Typing.analyze layout u).registry = registry := by
  unfold check at h
  simp only at h
  split at h
  · cases h
  · rename_i hfailure
    cases h
    exact ⟨errors_of_failure? hfailure, rfl, rfl⟩

/-- If a source is parsed and nothing is wrong with it, in whatever data model and with whatever
bound on the nesting of types, then every expression has its type and every member the place that its
object's type gives it, no size query is left, all declared types are known, and lowering gives code. -/
theorem Compilation.annotated_and_lowered {layout : Layout.Config} {source : String}
    {tree : Syntax.CompilationUnit} {registry : Registry}
    (h : (do check layout (← parse source)) = .ok (tree, registry)) :
    AllAnnotated registry (Node.ofUnit tree) ∧ ∃ m, Lowering.lower registry tree = .ok m := by
  obtain ⟨u, -, hcheck⟩ := Machine.except_bind_eq_ok.mp h
  obtain ⟨herrors, rfl, rfl⟩ := accepted_of_check hcheck
  obtain ⟨G, hsound, hunit⟩ := Typing.judged_of_analyze herrors
  exact ⟨Typing.annotated_unit hunit, Lowering.exists_lower hsound.consistent hunit⟩

/-- A source with a global, a size query, a loop and a block expression. -/
theorem Compilation.loop_annotated_and_lowered :
    ∃ tree registry, (do check ⟨.m68k, 8⟩ (← parse
        "int n = -3; int f(int a) { for (int i = sizeof(int); i; i -= 1) a += ({ n; }); return a; }")) =
      .ok (tree, registry) ∧ AllAnnotated registry (Node.ofUnit tree) ∧
        ∃ m, Lowering.lower registry tree = .ok m := by
  have haccepted : (do check ⟨.m68k, 8⟩ (← parse
      "int n = -3; int f(int a) { for (int i = sizeof(int); i; i -= 1) a += ({ n; }); return a; }")
      ).toOption.isSome = true := by decide +kernel
  obtain ⟨⟨tree, registry⟩, h⟩ := Option.isSome_iff_exists.mp haccepted
  exact ⟨tree, registry, ok_of_toOption h, annotated_and_lowered (ok_of_toOption h)⟩

end MiniC
