import MiniC.Proofs.Compilation.Optimization
import MiniC.Proofs.Compilation.Ranges
import MiniC.Proofs.Machine.Refusals
import MiniC.Proofs.Typing.Written
/-!
The number of arguments in compiled code. Main statement: a call that analysis lets through is refused by
the machine exactly if it gives a variadic function more arguments than that names, and no run that is
begun with the right number of arguments is ended by another such refusal.
-/
namespace MiniC

open Machine (Accepts Loaded Program)
open Syntax (CompilationUnit Expr FuncDecl TopDecl)
open Typing (Matches Node)

/-! What the declarations of a name have in common. -/

section Declarations

variable {ds : List TopDecl} {G : List Symbol} {f f' : FuncDecl}

theorem Typing.Matches.same (h : Matches ds G) (hf : .function f ∈ ds) (hf' : .function f' ∈ ds)
    (hname : f.name = f'.name) : f.params.length = f'.params.length := by
  obtain ⟨sym, hsym, sig, hsymName, hkind, hlength, -⟩ := h.functions f hf
  obtain ⟨sym', hsym', sig', hsymName', hkind', hlength', -⟩ := h.functions f' hf'
  obtain ⟨hparams, -⟩ := h.coherent sym hsym sym' hsym'
    (hsymName.trans (hname.trans hsymName'.symm)) sig sig' hkind hkind'
  rw [← hlength, ← hlength', hparams]

/-- A function of that name takes what the machine's own takes. -/
theorem Typing.Matches.assert (h : Matches ds G) {r : Registry} (hassert : assertSymbol r ∈ G)
    (hf : .function f ∈ ds) (hname : f.name = Machine.assertName) : f.params.length = 2 := by
  obtain ⟨sym, hsym, sig, hsymName, hkind, hlength, -⟩ := h.functions f hf
  obtain ⟨hparams, -⟩ := h.coherent sym hsym _ hassert (hsymName.trans hname) sig _ hkind rfl
  rw [← hlength, hparams]
  rfl

/-- What analysis asks of a call of a function. -/
theorem Typing.Matches.takes {r : Registry} (h : Matches ds G) (hf : .function f ∈ ds)
    {C : Typing.Site} {e : Expr} {t : TypeId} (he : Typing.HasType ⟨r, G⟩ C e t) {count : Nat}
    (hcall : e.IsCallOf f.name count) :
    f.params.length ≤ count ∧ (f.variadic = false → count = f.params.length) := by
  obtain ⟨callee, args, hkind, hcallee, rfl⟩ := hcall
  cases he with
  | @call _ callee' args' _ name sym sig hname _ hsym hsymName hsig htakes _ =>
    cases hkind
    obtain rfl : name = f.name := Syntax.ExprKind.name.inj (hname.symm.trans hcallee)
    obtain ⟨sym', hsym', sig', hsymName', hkind', hlength, hvariadic⟩ := h.functions f hf
    obtain ⟨hparams, hsurplus⟩ := h.coherent sym hsym sym' hsym' (hsymName.trans hsymName'.symm)
      sig sig' hsig hkind'
    obtain ⟨hleast, hmost⟩ := htakes
    rw [← hlength, ← hparams, ← hvariadic, ← hsurplus]
    refine ⟨hleast, fun hfixed => ?_⟩
    have hle := hmost.resolve_left (by simp [hfixed])
    omega
  | _ => cases hkind

end Declarations

namespace Compilation.Made

variable {s : Settings} {source : String} {c : Compilation} (made : Made s source c)
  {limits : Machine.Limits} {l : Loaded}

/-- A routine is made from a definition of its name. -/
theorem definition_of_routine (hload : Machine.load c.code limits = .ok l) {name : String}
    {r : Machine.Routine} (hr : l.program.routines[name]? = some r) :
    ∃ f, .function f ∈ made.tree.decls ∧ f.body.isSome ∧ f.name = name ∧
      r.arity = f.params.length := by
  obtain ⟨placements, memory, stack, hloads⟩ := Machine.loads_of_load hload
  obtain rfl := Except.ok.inj ((hloads.load_eq c.code.functions).symm.trans hload)
  obtain ⟨g, hg, rfl, rfl⟩ := Machine.mem_of_getElem?_routinesOf hr
  obtain ⟨-, hfunctions⟩ := Lowering.lower_eq_ok made.lowered_eq
    (Typing.scoped_of_analyze made.accepted).2
  rw [made.code_eq] at hg
  obtain ⟨g₀, hg₀, rfl⟩ := List.mem_map.mp hg
  obtain ⟨f, hf, hbody, hmade⟩ := hfunctions g₀ hg₀
  have hleaves := Code.Pass.leaves_rounds (Code.Pass.ofLevel s.level) Code.Pass.maxRounds g₀
  refine ⟨f, hf, hbody, hmade.name.symm.trans hleaves.name.symm, ?_⟩
  exact (congrArg List.length hleaves.params).trans hmade.arity

/-- A defined function takes as many arguments as it names. -/
theorem takes_of_definition (hload : Machine.load c.code limits = .ok l) {f : FuncDecl}
    (hf : .function f ∈ made.tree.decls) (hbody : f.body.isSome) :
    l.program.takes? f.name = some f.params.length := by
  obtain ⟨G, -, hmatches, hassert⟩ := Typing.matched_of_analyze made.accepted
  unfold Program.takes?
  by_cases hname : f.name = Machine.assertName
  · rw [if_pos hname, hmatches.assert hassert hf hname]
  rw [if_neg hname]
  obtain ⟨g, hg, hgname⟩ : ∃ g ∈ c.code.functions, g.name = f.name := by
    obtain ⟨g₀, hg₀, hname₀⟩ := Lowering.exists_function_of_lower made.lowered_eq hf hbody
    have hleaves := Code.Pass.leaves_rounds (Code.Pass.ofLevel s.level) Code.Pass.maxRounds g₀
    rw [made.code_eq]
    exact ⟨_, List.mem_map_of_mem hg₀, hleaves.name.trans hname₀⟩
  have hsome : (l.program.routines[f.name]?).isSome := by
    obtain ⟨placements, memory, stack, hloads⟩ := Machine.loads_of_load hload
    obtain rfl := Except.ok.inj ((hloads.load_eq c.code.functions).symm.trans hload)
    show ((Machine.routinesOf c.code.functions)[f.name]?).isSome
    rw [Machine.getElem?_routinesOf, Option.isSome_map, List.find?_isSome]
    exact ⟨g, List.mem_reverse.mpr hg, by simpa using hgname⟩
  obtain ⟨r, hr⟩ := Option.isSome_iff_exists.mp hsome
  obtain ⟨f', hf', -, hname', harity⟩ := made.definition_of_routine hload hr
  rw [hr, Option.map_some, harity, hmatches.same hf' hf hname']

/-- A call in the code is written in the unit, and analysis has let it through. -/
theorem written_of_call (hload : Machine.load c.code limits = .ok l) {name : String} {count : Nat}
    (h : l.program.HasCall name count) :
    (Typing.namesOf made.tree).fits name count ∧
      ∃ e, .expr e ∈ Node.ofUnit made.tree ∧ e.IsCallOf name count := by
  obtain ⟨caller, r, dst, args, hr, hcall, rfl⟩ := h
  obtain ⟨placements, memory, stack, hloads⟩ := Machine.loads_of_load hload
  obtain rfl := Except.ok.inj ((hloads.load_eq c.code.functions).symm.trans hload)
  obtain ⟨g, hg, -, rfl⟩ := Machine.mem_of_getElem?_routinesOf hr
  have hscoped : ∀ d ∈ made.tree.decls,
      Syntax.Scoped.topDecl ((Typing.namesOf made.tree).among (Node.ofUnit made.tree)) d := by
    intro d hd
    exact Typing.among_topDecl hd ((Typing.scoped_of_analyze made.accepted).2 d hd)
  obtain ⟨⟨S, horderly⟩, -⟩ := made.orderly_of_scoped hscoped hg
  exact (horderly.fine _ (List.mem_toArray.mp hcall)).names

end Compilation.Made

/-- At every level of optimization, in whatever state: a call of a function defined in the unit that
analysis lets through gives it no less than it names, and no more unless it is variadic; the machine
refuses the number exactly if there are more. A run that is begun with the right number of arguments
and is ended by such a refusal has come to a call in the unit that gives too many to a variadic
function. -/
theorem Compilation.call_refused_iff_surplus {s : Settings} {source file : String} {c : Compilation}
    {tree : CompilationUnit} {registry : Registry} {limits : Machine.Limits} {l : Loaded}
    (h : ofSource s source file = .ok c)
    (hcheck : (do check s.layout (← parse source)) = .ok (tree, registry))
    (hload : Machine.load c.code limits = .ok l) :
    (∀ f, .function f ∈ tree.decls → f.body.isSome → ∀ e count, .expr e ∈ Node.ofUnit tree →
      e.IsCallOf f.name count →
        f.params.length ≤ count ∧ (f.variadic = false → count = f.params.length) ∧
        ∀ state args, args.length = count → ∀ expected,
          (Machine.dispatch l.program state f.name args =
              .answer (.error (.argumentCount f.name expected count)) ↔
            expected = f.params.length ∧ f.params.length < count)) ∧
      ∀ state name args, Accepts l.program name args.length → ∀ callee expected got,
        (Machine.call l.program state name args).1 = .error (.argumentCount callee expected got) →
          ∃ f e, .function f ∈ tree.decls ∧ f.body.isSome ∧ f.name = callee ∧ f.variadic = true ∧
            expected = f.params.length ∧ f.params.length < got ∧
            .expr e ∈ Node.ofUnit tree ∧ e.IsCallOf callee got := by
  obtain ⟨made⟩ := made_of_ofSource h
  obtain ⟨u, hu, hcheck⟩ := Machine.except_bind_eq_ok.mp hcheck
  obtain ⟨-, rfl, rfl⟩ := accepted_of_check hcheck
  obtain rfl := Except.ok.inj (made.parsed_eq.symm.trans hu)
  obtain ⟨G, hunit, hmatches, hassert⟩ := Typing.matched_of_analyze made.accepted
  constructor
  · intro f hf hbody e count he hcall
    obtain ⟨C, t, htyped⟩ := Typing.sensible_unit hunit _ he
    obtain ⟨hleast, hexact⟩ := hmatches.takes hf htyped hcall
    refine ⟨hleast, hexact, ?_⟩
    rintro state args rfl expected
    rw [Machine.dispatch_refuses_iff, made.takes_of_definition hload hf hbody, Option.some.injEq]
    constructor
    · rintro ⟨-, rfl, -, hne⟩
      exact ⟨rfl, by omega⟩
    · rintro ⟨rfl, hlt⟩
      exact ⟨rfl, rfl, rfl, by omega⟩
  · intro state name args haccepts callee expected got hresult
    obtain ⟨hcall, htakes, hne⟩ :=
      Machine.attributed_call (made.tidy hload) state haccepts callee expected got hresult
    obtain ⟨⟨hassert, hfits⟩, e, he, hwritten⟩ := made.written_of_call hload hcall
    unfold Program.takes? at htakes
    by_cases hname : callee = Machine.assertName
    · rw [if_pos hname, Option.some.injEq] at htakes
      exact absurd ((hassert hname).trans htakes) hne
    · rw [if_neg hname] at htakes
      obtain ⟨r, hr, rfl⟩ := Option.map_eq_some_iff.mp htakes
      obtain ⟨f, hf, hbody, hfname, harity⟩ := made.definition_of_routine hload hr
      obtain ⟨hleast, hexact⟩ := hfits f hf hfname
      have hlt : f.params.length < got := by omega
      have hvariadic : f.variadic = true := by
        by_contra hfixed
        have heq := hexact (Bool.eq_false_iff.mpr hfixed)
        omega
      exact ⟨f, e, hf, hbody, hfname, hvariadic, harity, hlt, he, hwritten⟩

/-- The calls of that name in a tree with so many arguments. -/
def Compilation.callsOf (tree : CompilationUnit) (name : String) (count : Nat) : List Expr :=
  (Node.ofUnit tree).filterMap fun
    | .expr ⟨.call ⟨.name n, span', ty'⟩ args, span, ty⟩ =>
      if n = name ∧ args.length = count then some ⟨.call ⟨.name n, span', ty'⟩ args, span, ty⟩
      else none
    | _ => none

theorem Compilation.mem_of_callsOf {tree : CompilationUnit} {name : String} {count : Nat} {e : Expr}
    (h : e ∈ callsOf tree name count) : .expr e ∈ Node.ofUnit tree ∧ e.IsCallOf name count := by
  obtain ⟨node, hnode, heq⟩ := List.mem_filterMap.mp h
  split at heq
  · split at heq
    · rename_i hcall
      obtain rfl := Option.some.inj heq
      exact ⟨hnode, _, _, rfl, congrArg _ hcall.1, hcall.2⟩
    · cases heq
  · cases heq

/-- A variadic function that is given no more than it names. -/
theorem Compilation.call_without_surplus_accepted :
    ∃ c tree registry l e, ofSource ⟨⟨.lp64, 64⟩, 1⟩
        "int f(int a, ...) { return a; } int g(void) { return f(1); }" "f.c" = .ok c ∧
      (do check ⟨.lp64, 64⟩ (← parse
        "int f(int a, ...) { return a; } int g(void) { return f(1); }")) = .ok (tree, registry) ∧
      Machine.load c.code ⟨128, 4, 1000⟩ = .ok l ∧ .expr e ∈ Node.ofUnit tree ∧ e.IsCallOf "f" 1 ∧
      ∀ state a expected, Machine.dispatch l.program state "f" [a] ≠
        .answer (.error (.argumentCount "f" expected 1)) := by
  have hrun : ((ofSource ⟨⟨.lp64, 64⟩, 1⟩
      "int f(int a, ...) { return a; } int g(void) { return f(1); }" "f.c").toOption.bind fun c =>
        (do check ⟨.lp64, 64⟩ (← parse
          "int f(int a, ...) { return a; } int g(void) { return f(1); }")).toOption.bind fun x =>
            (Machine.load c.code ⟨128, 4, 1000⟩).toOption.bind fun _ =>
              (functionsOf x.1 "f").head?.bind fun f => (callsOf x.1 "f" 1).head?.map fun _ =>
                (f.body.isSome, f.params.length)) = some (true, 1) := by
    decide +kernel
  obtain ⟨c, hc, hrun⟩ := Option.bind_eq_some_iff.mp hrun
  obtain ⟨⟨tree, registry⟩, hcheck, hrun⟩ := Option.bind_eq_some_iff.mp hrun
  obtain ⟨l, hload, hrun⟩ := Option.bind_eq_some_iff.mp hrun
  obtain ⟨f, hf, hrun⟩ := Option.bind_eq_some_iff.mp hrun
  obtain ⟨e, he, hshape⟩ := Option.map_eq_some_iff.mp hrun
  obtain ⟨hbody, hlength⟩ := Prod.mk.inj hshape
  replace hc := ok_of_toOption hc
  replace hcheck := ok_of_toOption hcheck
  replace hload := ok_of_toOption hload
  obtain ⟨hf, hname⟩ := mem_of_functionsOf (List.mem_of_mem_head? hf)
  obtain ⟨he, hcall⟩ := mem_of_callsOf (List.mem_of_mem_head? he)
  obtain ⟨hcalls, -⟩ := call_refused_iff_surplus hc hcheck hload
  obtain ⟨-, -, hrefused⟩ := hcalls f hf hbody e 1 he (hname ▸ hcall)
  refine ⟨c, tree, registry, l, e, hc, hcheck, hload, he, hcall, fun state a expected hdispatch => ?_⟩
  rw [hname] at hrefused
  obtain ⟨-, hlt⟩ := (hrefused state [a] rfl expected).mp hdispatch
  omega

/-- A name that only functions with so many parameters have takes so many arguments. -/
theorem accepts_of_functions {m : Code.Module} {limits : Machine.Limits} {l : Loaded}
    (hload : Machine.load m limits = .ok l) {name : String} {count : Nat}
    (hname : name ≠ Machine.assertName)
    (h : ∀ g ∈ m.functions, g.name = name → g.params.length = count) :
    Accepts l.program name count := by
  obtain ⟨placements, memory, stack, hloads⟩ := Machine.loads_of_load hload
  obtain rfl := Except.ok.inj ((hloads.load_eq m.functions).symm.trans hload)
  refine ⟨fun hassert => absurd hassert hname, fun r hr => ?_⟩
  obtain ⟨g, hg, rfl, rfl⟩ := Machine.mem_of_getElem?_routinesOf hr
  exact (h g hg rfl).symm

/-- Without optimization the code is what was lowered. -/
theorem Compilation.lower_of_ofSource {layout : Layout.Config} {source file : String} {c : Compilation}
    {tree : CompilationUnit} {registry : Registry} (h : ofSource ⟨layout, 0⟩ source file = .ok c)
    (hcheck : (do check layout (← parse source)) = .ok (tree, registry)) :
    Lowering.lower registry tree = .ok c.code := by
  obtain ⟨made⟩ := made_of_ofSource h
  obtain ⟨u, hu, hcheck⟩ := Machine.except_bind_eq_ok.mp hcheck
  obtain ⟨-, rfl, rfl⟩ := accepted_of_check hcheck
  obtain rfl := Except.ok.inj (made.parsed_eq.symm.trans hu)
  have hcode : c.code = made.lowered := made.code_eq.trans (Code.Module.optimize_zero _)
  rw [hcode]
  exact made.lowered_eq

/-- Analysis lets a second argument through, and the machine refuses it. -/
theorem Compilation.surplus_argument_refused :
    ∃ c limits l, ofSource ⟨⟨.lp64, 64⟩, 0⟩
        "int f(int a, ...) { return a; } int g(void) { return f(1, 2); }" "f.c" = .ok c ∧
      Machine.load c.code limits = .ok l ∧ Accepts l.program "g" 0 ∧
      (Machine.call l.program l.state "g" []).1 = .error (.argumentCount "f" 1 2) := by
  let shape (c : Compilation) (x : CompilationUnit × Registry) (l : Loaded) :=
    (c.code.functions.map fun g : Code.Function => (g.name, g.params.length),
      ((Evaluation.Program.ofLoaded x.2 x.1 l).evaluate 0 l.state "g" []).map (·.1))
  have hrun : ((ofSource ⟨⟨.lp64, 64⟩, 0⟩
      "int f(int a, ...) { return a; } int g(void) { return f(1, 2); }" "f.c").toOption.bind fun c =>
        (do check ⟨.lp64, 64⟩ (← parse
          "int f(int a, ...) { return a; } int g(void) { return f(1, 2); }")).toOption.bind fun x =>
            (Machine.load c.code ⟨128, 4, 1000⟩).toOption.map fun l => shape c x l) =
      some ([("f", 1), ("g", 0)], some (.error (.argumentCount "f" 1 2))) := by
    decide +kernel
  obtain ⟨c, hc, hrun⟩ := Option.bind_eq_some_iff.mp hrun
  obtain ⟨⟨tree, registry⟩, hcheck, hrun⟩ := Option.bind_eq_some_iff.mp hrun
  obtain ⟨l₀, hload, hshape⟩ := Option.map_eq_some_iff.mp hrun
  obtain ⟨hfunctions, heval⟩ := Prod.mk.inj hshape
  replace hc := ok_of_toOption hc
  replace hcheck := ok_of_toOption hcheck
  obtain ⟨steps, l, hload, hcall⟩ := exists_call_of_evaluate hcheck (lower_of_ofSource hc hcheck)
    (ok_of_toOption hload) heval
  refine ⟨c, _, l, hc, hload, accepts_of_functions hload (by decide) fun g hg hname => ?_, ?_⟩
  · have hmem : (g.name, g.params.length) ∈ [("f", 1), ("g", 0)] :=
      hfunctions ▸ List.mem_map_of_mem (f := fun g : Code.Function => (g.name, g.params.length)) hg
    rw [hname] at hmem
    simpa using hmem
  · exact hcall

end MiniC
