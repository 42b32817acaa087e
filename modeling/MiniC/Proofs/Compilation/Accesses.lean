import MiniC.Proofs.Compilation.Safety
import MiniC.Proofs.Compilation.Contracts
import MiniC.Proofs.Lowering.Objects
import MiniC.Proofs.Machine.Accesses
import MiniC.Proofs.Syntax.Sources
/-!
The accesses of compiled code that follows no pointer. Main statement: whatever such code loads or
stores lies inside the global, the string or the local at whose address the access is based.
-/
namespace MiniC

open Machine (Extent Inside Loaded Object accessesIn alive objects served)
open Syntax (CompilationUnit ParamDecl TopDecl VarDecl)
open Typing (Direct Node)

/-- No name of a program is the label of a text. -/
theorem not_spelled_textLabel (n : Nat) : ¬ Spelled (Lowering.textLabel n) := by
  rintro ⟨c, cs, hlist, hstart⟩
  have hdot : (Lowering.textLabel n).toList = '.' :: ("Lstr" ++ toString n).toList := by
    rw [Lowering.textLabel, String.toList_append, String.toList_append]
    rfl
  obtain ⟨rfl, -⟩ := List.cons.inj (hdot.symm.trans hlist)
  exact absurd hstart (by decide)

def Syntax.TopDecl.params : TopDecl → List ParamDecl
  | .declaration _ => []
  | .function f => f.params

theorem Syntax.TopDecl.globals_eq (d : TopDecl) : d.globals = d.variables.map (·.name) := by
  cases d <;> rfl

/-- The ranges of the globals and strings that were loaded. -/
def Machine.image (limits : Machine.Limits) (m : Code.Module) : Set Extent :=
  {e | ∃ o ∈ objects limits m, o.toExtent = e}

/-- So many bytes at an offset from an address, in the object of the address. -/
def Machine.Within (Ω : Set Extent) (a d : Int64) (n : Nat) : Prop :=
  ∃ e ∈ Ω, e.stop ≤ Layout.maxObjectSize ∧ e.Covers a 0 ∧ e.Covers (a + d) n

theorem Machine.Extent.Covers.narrow {e : Extent} {a : Int64} {n k : Nat} (h : e.Covers a n)
    (hk : k ≤ n) : e.Covers a k := by
  unfold Extent.Covers at h ⊢
  omega

theorem Machine.within_self {Ω : Set Extent} {e : Extent} (he : e ∈ Ω)
    (hsize : e.stop ≤ Layout.maxObjectSize) :
    Machine.Within Ω (Int64.ofNat e.start) 0 e.size := by
  have hcovers := Machine.covers_self hsize
  refine ⟨e, he, hsize, hcovers.narrow (Nat.zero_le _), ?_⟩
  rwa [Int64.add_zero]

namespace Compilation.Made

variable {s : Settings} {source : String} {c : Compilation} (made : Made s source c)

include made in
/-- The object of a name has the size of the variable of that name. -/
theorem size_of_object {limits : Machine.Limits} {l : Loaded}
    (hload : Machine.load c.code limits = .ok l) {v : VarDecl} {d : Syntax.Declaration}
    (hd : .declaration d ∈ made.tree.decls) (hv : v ∈ d.kind.declared) {t : TypeId}
    (ht : v.resolved = some t) {o : Object} (ho : o ∈ objects limits c.code)
    (hname : o.name = v.name) : o.size = made.registry.sizeOf t := by
  obtain ⟨hnames, hsizes, -⟩ := Machine.objects_of_load hload
  obtain ⟨hholds, htexts⟩ := Lowering.objects_of_lower made.lowered_eq
  obtain ⟨i, hi⟩ := List.mem_iff_getElem?.mp ho
  have hname' : (c.code.globals.map (·.name) ++ c.code.data.map (·.label))[i]? = some o.name := by
    rw [← hnames, List.getElem?_map, hi]
    rfl
  have hsize : (c.code.globals.map (·.size) ++ c.code.data.map Machine.sizeOfDatum)[i]? =
      some o.size := by
    rw [← hsizes, List.getElem?_map, hi]
    rfl
  have hglobals : v.name ∈ made.tree.decls.flatMap TopDecl.globals :=
    List.mem_flatMap.mpr ⟨_, hd, List.mem_map_of_mem hv⟩
  by_cases hlt : i < c.code.globals.length
  · rw [List.getElem?_append_left (by simpa using hlt), List.getElem?_map] at hname' hsize
    obtain ⟨g, hg, hgname⟩ := Option.map_eq_some_iff.mp hname'
    rw [hg] at hsize
    have hgmem : g ∈ made.lowered.globals := by
      have hmem := List.mem_of_getElem? hg
      rwa [made.code_eq] at hmem
    obtain ⟨w, hw, hholds⟩ := Lowering.exists_of_forall₂ hholds.flip hgmem
    have hdistinct := Typing.nodup_globals_of_analyze made.accepted
    have hvariables : made.tree.decls.flatMap TopDecl.globals =
        (made.tree.decls.flatMap TopDecl.variables).map (·.name) := by
      rw [List.map_flatMap]
      exact congrArg (made.tree.decls.flatMap ·) (funext TopDecl.globals_eq)
    rw [show (Typing.analyze s.layout made.parsed).tree = made.tree from rfl, hvariables]
      at hdistinct
    obtain rfl : w = v := List.inj_on_of_nodup_map hdistinct
      hw (List.mem_flatMap.mpr ⟨_, hd, hv⟩)
      (hholds.name.symm.trans (hgname.trans hname))
    exact (Option.some.inj hsize).symm.trans (hholds.size t ht)
  · rw [List.getElem?_append_right (by simpa using hlt), List.getElem?_map] at hname'
    obtain ⟨x, hx, hlabel⟩ := Option.map_eq_some_iff.mp hname'
    have hxmem : x ∈ made.lowered.data := by
      have hmem := List.mem_of_getElem? hx
      rwa [made.code_eq] at hmem
    obtain ⟨n, hn⟩ := List.mem_iff_getElem?.mp hxmem
    replace hn := htexts n x hn
    have hparsed : Syntax.CompilationUnit.parse source = .ok made.parsed :=
      mapError_eq_ok made.parsed_eq
    have hunchanged := Typing.globals_analyze s.layout made.parsed
    rw [show (Typing.analyze s.layout made.parsed).tree = made.tree from rfl] at hunchanged
    rw [hunchanged] at hglobals
    obtain ⟨d', hd', hmem⟩ := List.mem_flatMap.mp hglobals
    have hspelled := Syntax.spelled_of_parse hparsed d' hd' _ hmem
    rw [← hname, ← hlabel, hn] at hspelled
    exact absurd hspelled (not_spelled_textLabel n)

/-- What lies in a loaded object or in a block may be accessed. -/
theorem guards (hdirect : Direct (Node.ofUnit made.parsed)) {limits : Machine.Limits} {l : Loaded}
    (hload : Machine.load c.code limits = .ok l) {size : Nat}
    (hsize : size ≤ Layout.maxObjectSize) (hmemory : l.state.memory.size = size) :
    made.Guards l (Machine.image limits c.code) True size
      fun Ω => Machine.Within (Machine.image limits c.code ∪ Ω) where
  admits G hsigned Ω :=
    { parts := by
        rintro a o n d k ⟨e, he, hstop, hbase, hcovers⟩ hd
        refine ⟨e, he, hstop, hbase, ?_⟩
        rw [← Int64.add_assoc]
        exact hcovers.further hd hstop
      moves := by
        rintro a o n ⟨e, he, hstop, -, hcovers⟩
        refine ⟨e, he, hstop, hcovers.narrow (Nat.zero_le _), ?_⟩
        rwa [Int64.add_zero]
      objects := by
        intro sym hsym hobject a ha
        obtain ⟨d, v, hd, hv, hname, ht⟩ := hsigned.objects sym hsym hobject
        obtain ⟨-, -, haddress⟩ := Machine.objects_of_load hload
        rw [haddress] at ha
        obtain ⟨o, hfind, rfl⟩ := Option.map_eq_some_iff.mp ha
        have ho : o ∈ objects limits c.code := List.mem_reverse.mp (List.mem_of_find?_eq_some hfind)
        have honame : o.name = sym.name := by simpa using List.find?_some hfind
        rw [← made.size_of_object hload hd hv ht ho (honame.trans hname.symm)]
        obtain ⟨hbelow, hfits, -⟩ := Machine.stack_of_load hload
        exact Machine.within_self (.inl ⟨o, ho, rfl⟩) (((hbelow o ho).trans hfits).trans (by omega)) }
  grows Ω Ω' hΩ a o n := by
    rintro ⟨e, he, h⟩
    exact ⟨e, Set.union_subset_union_right _ hΩ he, h⟩
  inside _ Ω a o n := by
    rintro ⟨e, he, -, h⟩
    exact ⟨e, he, h⟩
  blocks Ω e he hstop := Machine.within_self (.inr he) (hstop.trans hsize)
  follows := .inl hdirect

end Compilation.Made

/-- A program without subscripts, without dereferences and without members of what a pointer points
to only accesses what it names. In a call that passes no structs, at every level of optimization and
whatever was called before, in a memory whose addresses are words, each load and store, of the function
and of all that it calls, lies inside the global, string or live local into which its base address
points; so no access faults. -/
theorem Compilation.accesses_inside {s : Settings} {source file : String} {c : Compilation}
    {u tree : CompilationUnit} {registry : Registry} (h : ofSource s source file = .ok c)
    (hparse : parse source = .ok u) (hcheck : check s.layout u = .ok (tree, registry))
    (hdirect : Direct (Node.ofUnit u)) {limits : Machine.Limits} {l : Loaded}
    (hload : Machine.load c.code limits = .ok l) (hmemory : limits.memory ≤ Layout.maxObjectSize)
    (requests : List (String × List Int64)) {name : String}
    (hparams : ∀ f, .function f ∈ tree.decls → f.name = name → ∀ p ∈ f.params, ∀ t,
      p.resolved = some t → registry.isStruct t = false) (args : List Int64) :
    (∀ a, (Machine.call l.program (served l.program l.state requests) name args).1 ≠
      .error (.nullPointer a)) ∧
    (∀ a n, (Machine.call l.program (served l.program l.state requests) name args).1 ≠
      .error (.outOfBounds a n)) ∧
    ∀ x ∈ accessesIn l.program (served l.program l.state requests) name args,
      Inside (Machine.image limits c.code ∪ alive x.configuration.live)
        x.part.base x.part.offset x.part.size := by
  obtain ⟨made⟩ := made_of_ofSource h
  obtain rfl : made.parsed = u := Except.ok.inj (made.parsed_eq.symm.trans hparse)
  obtain ⟨-, rfl, rfl⟩ := accepted_of_check hcheck
  obtain ⟨habove, hstack, hsize⟩ := Machine.guarded_of_load hload
  obtain ⟨hbelow, hfits, -⟩ := Machine.stack_of_load hload
  have hhonors := made.honors hload (made.guards hdirect hload hmemory hsize)
  have hsized : Machine.Sized limits.memory (Machine.image limits c.code)
      (served l.program l.state requests) :=
    { stack := (Machine.served_restores l.program l.state requests).1.symm ▸ hstack
      memory := (Machine.size_served l.program l.state requests).trans hsize
      objects := by
        rintro e ⟨o, ho, rfl⟩
        exact ⟨habove o ho, ((hbelow o ho).trans hfits).trans_eq hsize⟩ }
  have hargs (reach : Int64 → Int64 → Nat → Prop) (i : Nat) (v : Int64) :
      (made.terms l reach).param name i v := by
    intro f hf hname p t hp ht hstruct
    have hscalar := hparams f hf hname p (List.mem_of_getElem? hp) t ht
    cases hstruct.symm.trans hscalar
  have hresult := Machine.contracted_called (Ω := ∅) hhonors (by rwa [Set.union_empty])
    (l.program.limits.steps - (served l.program l.state requests).steps + 1)
    fun i v (_ : args[i]? = some v) => hargs _ i v
  rw [← Machine.call_eq_called] at hresult
  refine ⟨fun a ha => ?_, fun a n ha => ?_, ?_⟩
  · rw [ha] at hresult
    exact hresult trivial
  · rw [ha] at hresult
    exact hresult trivial
  · exact Machine.inside_accessesIn hhonors trivial hsized fun i v _ => hargs _ i v

/-- A struct that is copied from where a condition says, and a member of it. -/
theorem Compilation.copies_accesses_inside :
    ∃ c l, ofSource ⟨⟨.lp64, 64⟩, 1⟩
        "struct P { char a; int b; } g; int f(int n) { g = n ? g : ({ g; }); return g.b; }" "f.c" =
          .ok c ∧
      Machine.load c.code ⟨128, 4, 1000⟩ = .ok l ∧
      (∀ a n, (Machine.call l.program l.state "f" [3]).1 ≠ .error (.outOfBounds a n)) ∧
      ∀ x ∈ accessesIn l.program l.state "f" [3],
        Inside (Machine.image ⟨128, 4, 1000⟩ c.code ∪ alive x.configuration.live)
          x.part.base x.part.offset x.part.size := by
  let source :=
    "struct P { char a; int b; } g; int f(int n) { g = n ? g : ({ g; }); return g.b; }"
  have hcompile : ((ofSource ⟨⟨.lp64, 64⟩, 1⟩ source "f.c").toOption.bind fun c =>
      (Machine.load c.code ⟨128, 4, 1000⟩).toOption.map fun _ => c.code.functions.length) =
        some 1 := by decide +kernel
  have hparse : ((parse source).toOption.bind fun u => (check ⟨.lp64, 64⟩ u).toOption.map fun x =>
      ((Node.ofUnit u).all (!·.isIndirect),
        (x.1.decls.flatMap TopDecl.params).map (·.resolved.map x.2.isStruct))) =
          some (true, [some false]) := by decide +kernel
  obtain ⟨c, hc, hcompile⟩ := Option.bind_eq_some_iff.mp hcompile
  obtain ⟨l, hload, -⟩ := Option.map_eq_some_iff.mp hcompile
  obtain ⟨u, hu, hparse⟩ := Option.bind_eq_some_iff.mp hparse
  obtain ⟨x, hcheck, hfacts⟩ := Option.map_eq_some_iff.mp hparse
  obtain ⟨hdirect, hscalars⟩ := Prod.mk.inj hfacts
  replace hc := ok_of_toOption hc
  replace hload := ok_of_toOption hload
  have hparams : ∀ f, .function f ∈ x.1.decls → f.name = "f" → ∀ p ∈ f.params, ∀ t,
      p.resolved = some t → x.2.isStruct t = false := by
    intro f hf _ p hp t ht
    have hmem : p.resolved.map x.2.isStruct ∈ [some false] :=
      hscalars ▸ List.mem_map_of_mem (List.mem_flatMap.mpr ⟨_, hf, hp⟩)
    rw [ht] at hmem
    exact Option.some.inj (List.mem_singleton.mp hmem)
  obtain ⟨-, hbounds, hinside⟩ := accesses_inside hc (ok_of_toOption hu) (ok_of_toOption hcheck)
    (fun n hn => by simpa using List.all_eq_true.mp hdirect n hn) hload (by decide) [] hparams [3]
  exact ⟨c, l, hc, hload, hbounds, hinside⟩

end MiniC
