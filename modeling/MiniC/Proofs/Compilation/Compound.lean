import MiniC.Proofs.Compilation.Ranges
import MiniC.Proofs.Evaluation.Compound
import MiniC.Proofs.Evaluation.Initial
/-!
Compound assignment in compiled code. Main statement: for a variable and an operand of integer types,
the code of `x op= e` does what the code of `x = x op e` does, if the operator and the types are
`Alike`; and for all other operators and types some values tell the two apart.
-/
namespace MiniC

open Code (Function Label)
open Evaluation (Alike IsCompound IsSpelledOut IsVariable Program Scopes Twins compounds)
open Lowering (Agrees)
open Machine (Frame Loaded Memory)
open Simulation (Meets Reached Setting Stand)
open Syntax (CompilationUnit Expr)
open Typing (Node)

namespace Evaluation

open Registry (widths)
open Syntax (BinaryOp)

/-- A context in which every variable is a global at the first address that can be reached. -/
def solitary (r : Registry) : Context where
  registry := r
  returns := Registry.void
  global _ := some (Int64.ofNat (Machine.nullGuard + 0))
  text _ := 0
  call _ _ := throw .stuck
  rounds := 0
  inLoop := false
  scopes := []

theorem exists_stored {a : Access} (ha : a.size ∈ widths) {x : Int64} (hx : Held a x) :
    ∃ memory, Room memory Machine.nullGuard 8 ∧
      memory.load (Int64.ofNat (Machine.nullGuard + 0)) a.size a.signed = .ok x := by
  have hle : 0 + a.size ≤ 8 := by
    simp only [widths, List.mem_cons, List.not_mem_nil, or_false] at ha
    omega
  have hroom : Room (Memory.zeros 32) Machine.nullGuard 8 := ⟨Nat.le_refl _, by decide, by decide⟩
  have hstore : (Memory.zeros 32).store (Int64.ofNat (Machine.nullGuard + 0)) a.size x =
      .ok ((Memory.zeros 32).put (Machine.nullGuard + 0) a.size x) := by
    rw [Memory.store, hroom.locate hle]
  let memory := (Memory.zeros 32).put (Machine.nullGuard + 0) a.size x
  have hsize : memory.size = (Memory.zeros 32).size := Memory.size_put _ _ _ _
  refine ⟨memory, ⟨hroom.above, hsize ▸ hroom.fits, hsize ▸ hroom.words⟩, ?_⟩
  rw [load_store (by omega) hstore, hx]

/-- Where the types are not alike for the operator, the two forms differ for some values. -/
theorem forms_differ {r : Registry} {op : BinaryOp} {t u : TypeId} {a b : Access} (hc : r.Consistent)
    (ht : r.isInteger t = true) (ha : r.access? t = some a) (hu : r.isInteger u = true)
    (hb : r.access? u = some b) (hop : op ∈ compounds) (h : ¬ Alike op a b) :
    ∃ (c : Context) (k : Counters) (name : String) (e form form' : Expr) (st : Store),
      c.registry = r ∧ Twins c k u b st e e ∧ IsCompound op name t e form ∧
      IsSpelledOut r op name t u e form' ∧ (value c form k).1 st ≠ (value c form' k).1 st := by
  have hwidth := (hc.access_size ha).2
  have hwidth' := (hc.access_size hb).2
  obtain ⟨x, -, y, -, hx, hy, hne⟩ := reduced_differs op hop a (mem_accesses hwidth) b
    (mem_accesses hwidth') h
  obtain ⟨memory, hroom, hread⟩ := exists_stored hwidth hx
  let c := solitary r
  let e : Expr := ⟨.cast default ⟨.integer y, Span.nowhere, some u⟩, Span.nowhere, some u⟩
  let variable_ : Expr := ⟨.name "x", Span.nowhere, some t⟩
  let v := integer (meeting op a b)
  let form : Expr := ⟨.assign (some op) variable_ e, Span.nowhere, some t⟩
  let form' : Expr :=
    ⟨.assign none variable_ ⟨.binary op variable_ e, Span.nowhere, some v⟩, Span.nowhere, some t⟩
  let st : Store := ⟨memory, 0, fun _ => none⟩
  have he : (value c e ⟨0, 0⟩).1 st = .ok y st := by
    have hcast : Simulation.IsCastOf y u e := ⟨_, _, _, _, rfl⟩
    have hvalue : (value c e ⟨0, 0⟩).1 st = .ok (b.truncate y) st :=
      Simulation.value_cast hcast hb
    rwa [show b.truncate y = y from hy] at hvalue
  have htwins : Twins c ⟨0, 0⟩ u b st e e := by
    refine ⟨rfl, rfl, rfl, fun w st' hrun => ?_⟩
    cases he.symm.trans hrun
    exact ⟨rfl, hy⟩
  have hv : Typing.binaryType r op t u Span.nowhere = .ok v := by
    rw [eq_integer hc ht ha, eq_integer hc hu hb]
    exact binaryType_compound hc.scalars hwidth hwidth' hop _
  have hform : IsCompound op "x" t e form := ⟨variable_, _, ⟨_, rfl⟩, rfl⟩
  have hform' : IsSpelledOut r op "x" t u e form' :=
    ⟨variable_, variable_, _, _, v, ⟨_, rfl⟩, ⟨_, rfl⟩, hv, rfl⟩
  have hnamed : c.named t "x" st = .ok (.object t (Int64.ofNat (Machine.nullGuard + 0))) st := rfl
  have hload : load c.registry t (Int64.ofNat (Machine.nullGuard + 0)) st = .ok x st := by
    rw [load_scalar ha, hread]
    rfl
  refine ⟨c, ⟨0, 0⟩, "x", e, form, form', st, rfl, htwins, hform, hform', ?_⟩
  rw [run_compound (c := c) hc ht ha hu hb hop rfl hnamed hload he hform,
    run_spelledOut (c := c) hc ht ha hu hb hop rfl hnamed hload he hform']
  refine commit_ne (fun w => ?_) hne.symm
  have hle : 0 + a.size ≤ 8 := by
    simp only [widths, List.mem_cons, List.not_mem_nil, or_false] at hwidth
    omega
  have hstore : store c.registry t (Int64.ofNat (Machine.nullGuard + 0)) w st =
      write (Int64.ofNat (Machine.nullGuard + 0)) a.size w st := by
    rw [store, show c.registry.access? t = some a from ha]
  exact ⟨_, hstore.trans (hroom.write 0 w hle)⟩

end Evaluation

/-- For integer types, the two forms of an assignment do the same in every context if and only if the
types are alike for the operator. If they are, the code of either form, wherever it stands in a
function and in whatever state the machine begins it with the locals in scope, does what evaluation of
the spelled-out form does: it stores the same value, has the same value, and faults in the same cases. -/
theorem Compilation.compound_eq_spelledOut_iff {layout : Layout.Config} {source : String}
    {tree : CompilationUnit} {registry : Registry} {code : Code.Module} {limits : Machine.Limits}
    {l : Loaded} (h : (do check layout (← parse source)) = .ok (tree, registry))
    (hcode : Lowering.lower registry tree = .ok code) (hload : Machine.load code limits = .ok l) :
    ∀ op ∈ compounds, ∀ t u a b, registry.isInteger t = true → registry.access? t = some a →
      registry.isInteger u = true → registry.access? u = some b →
      (Alike op a b ↔ ∀ (c : Evaluation.Context) k name e e' form form' st, c.registry = registry →
        Twins c k u b st e e' → IsCompound op name t e form →
        IsSpelledOut registry op name t u e' form' →
          (Evaluation.value c form k).1 st = (Evaluation.value c form' k).1 st) ∧
      (Alike op a b → ∀ g ∈ code.functions, ∀ returns targets scopes k s, Agrees scopes k s →
        ∀ rounds room,
          let p := Program.ofLoaded registry tree l
          let c := p.context rounds room returns scopes targets.isSome
          ∀ name e e' form form', IsCompound op name t e form →
            IsSpelledOut registry op name t u e' form' → ∀ either, either = form ∨ either = form' →
              ∀ v s', Lowering.valueOf registry (Lowering.expr (Simulation.inCode c targets) either) s =
                  .ok (v, s') → Stand code g s' →
                ∀ f m, Reached g s f → p.callDepth - m.depth = room →
                  let M := Setting.ofFunction p code l g rounds m
                  Twins c k u b (M.store f m) e e' →
                    Meets M targets s.temps f m (M.store f m)
                      (fun w _ f' => f'.pc = s'.code.size ∧ Machine.value l.program f' v = .ok w)
                      ((Evaluation.value c form' k).1 (M.store f m))) := by
  obtain ⟨unit, -, hcheck⟩ := Machine.except_bind_eq_ok.mp h
  obtain ⟨herrors, rfl, rfl⟩ := accepted_of_check hcheck
  obtain ⟨G, hsound, -, -, -⟩ := Typing.signed_of_analyze herrors
  have hlinked := Simulation.linked_of_load herrors hcode hload
  have hc := hsound.consistent
  intro op hop t u a b ht ha hu hb
  refine ⟨⟨fun halike => ?_, fun hagree => ?_⟩, fun halike => ?_⟩
  · intro c k name e e' form form' st hregistry htwins hform hform'
    rw [← hregistry] at hc ht ha hu hb hform'
    exact Evaluation.forms_agree hc ht ha hu hb hop halike htwins hform hform'
  · by_contra hdiffer
    obtain ⟨c, k, name, e, form, form', st, hregistry, htwins, hform, hform', hne⟩ :=
      Evaluation.forms_differ hc ht ha hu hb hop hdiffer
    exact hne (hagree c k name e e form form' st hregistry htwins hform hform')
  · intro g hg returns targets scopes k s hk rounds room p c name e e' form form' hform hform' either
      heither v s' hvalue hstand f m hreached hroom M htwins
    subst hroom
    have hmeets := hlinked.meets_value hg returns targets hk rounds hvalue hstand hreached
    rcases heither with rfl | rfl
    · have hsame := Evaluation.forms_agree (c := c) hc ht ha hu hb hop halike htwins hform hform'
      rw [← hsame]
      exact hmeets
    · exact hmeets

/-- The assignments of a tree of that form, with that operand and their type: `x op= y`. -/
def Compilation.compoundsOf (tree : CompilationUnit) (op : Syntax.BinaryOp) (name operand : String)
    (t u : TypeId) : List (Expr × Expr) :=
  (Node.ofUnit tree).filterMap fun
    | .expr ⟨.assign (some o) ⟨.name n, span, some t₁⟩ ⟨.name m, span', some u₁⟩, span₁, some t₂⟩ =>
      if o = op ∧ n = name ∧ m = operand ∧ t₁ = t ∧ t₂ = t ∧ u₁ = u then
        some (⟨.name m, span', some u₁⟩,
          ⟨.assign (some o) ⟨.name n, span, some t₁⟩ ⟨.name m, span', some u₁⟩, span₁, some t₂⟩)
      else none
    | _ => none

theorem Compilation.mem_of_compoundsOf {tree : CompilationUnit} {op : Syntax.BinaryOp}
    {name operand : String} {t u : TypeId} {x : Expr × Expr}
    (h : x ∈ compoundsOf tree op name operand t u) :
    .expr x.2 ∈ Node.ofUnit tree ∧ IsVariable operand u x.1 ∧ IsCompound op name t x.1 x.2 := by
  obtain ⟨node, hnode, heq⟩ := List.mem_filterMap.mp h
  split at heq
  · split at heq
    · rename_i hparts
      obtain ⟨rfl, rfl, rfl, rfl, rfl, rfl⟩ := hparts
      obtain rfl := Option.some.inj heq
      exact ⟨hnode, ⟨_, rfl⟩, _, _, ⟨_, rfl⟩, rfl⟩
    · cases heq
  · cases heq

/-- The assignments of a tree of the form `x = x op y`, if the operator has the type that it is given
in that registry. -/
def Compilation.spelledOutsOf (r : Registry) (tree : CompilationUnit) (op : Syntax.BinaryOp)
    (name operand : String) (t u : TypeId) : List (Expr × Expr) :=
  (Node.ofUnit tree).filterMap fun
    | .expr ⟨.assign none ⟨.name n, span, some t₁⟩
        ⟨.binary o ⟨.name n', span', some t₂⟩ ⟨.name m, span₂, some u₁⟩, inner, some v⟩, span₁,
        some t₃⟩ =>
      if o = op ∧ n = name ∧ n' = name ∧ m = operand ∧ t₁ = t ∧ t₂ = t ∧ t₃ = t ∧ u₁ = u ∧
          (Typing.binaryType r op t u inner).toOption = some v then
        some (⟨.name m, span₂, some u₁⟩, ⟨.assign none ⟨.name n, span, some t₁⟩
          ⟨.binary o ⟨.name n', span', some t₂⟩ ⟨.name m, span₂, some u₁⟩, inner, some v⟩, span₁,
          some t₃⟩)
      else none
    | _ => none

theorem Compilation.mem_of_spelledOutsOf {r : Registry} {tree : CompilationUnit}
    {op : Syntax.BinaryOp} {name operand : String} {t u : TypeId} {x : Expr × Expr}
    (h : x ∈ spelledOutsOf r tree op name operand t u) :
    .expr x.2 ∈ Node.ofUnit tree ∧ IsVariable operand u x.1 ∧ IsSpelledOut r op name t u x.1 x.2 := by
  obtain ⟨node, hnode, heq⟩ := List.mem_filterMap.mp h
  split at heq
  · split at heq
    · rename_i hparts
      obtain ⟨rfl, rfl, rfl, rfl, rfl, rfl, rfl, rfl, hv⟩ := hparts
      obtain rfl := Option.some.inj heq
      exact ⟨hnode, ⟨_, rfl⟩, _, _, _, _, _, ⟨_, rfl⟩, ⟨_, rfl⟩, ok_of_toOption hv, rfl⟩
    · cases heq
  · cases heq

/-- A `char` that is shifted by a `long`, in either form. -/
theorem Compilation.shifted_alike :
    ∃ tree registry code l e e' form form', (do check ⟨.lp64, 64⟩ (← parse
        "char f(char x, long n) { x >>= n; x = x >> n; return x; }")) = .ok (tree, registry) ∧
      Lowering.lower registry tree = .ok code ∧ Machine.load code ⟨128, 4, 1000⟩ = .ok l ∧
      .expr form ∈ Node.ofUnit tree ∧ .expr form' ∈ Node.ofUnit tree ∧
      IsCompound .shr "x" (Registry.int 1 true) e form ∧
      IsSpelledOut registry .shr "x" (Registry.int 1 true) (Registry.int 8 true) e' form' ∧
      ∀ (c : Evaluation.Context) k st, c.registry = registry →
        (Evaluation.value c form k).1 st = (Evaluation.value c form' k).1 st := by
  have hrun : ((do check ⟨.lp64, 64⟩ (← parse
      "char f(char x, long n) { x >>= n; x = x >> n; return x; }")).toOption.bind fun x =>
        (Lowering.lower x.2 x.1).toOption.bind fun code =>
          (Machine.load code ⟨128, 4, 1000⟩).toOption.bind fun _ =>
            (compoundsOf x.1 .shr "x" "n" (Registry.int 1 true) (Registry.int 8 true)).head?.bind fun _ =>
              (spelledOutsOf x.2 x.1 .shr "x" "n" (Registry.int 1 true)
                (Registry.int 8 true)).head?.map fun _ =>
                  (x.2.integer? (Registry.int 1 true), x.2.integer? (Registry.int 8 true))) =
      some (some ⟨1, true⟩, some ⟨8, true⟩) := by decide +kernel
  obtain ⟨⟨tree, registry⟩, hcheck, hrun⟩ := Option.bind_eq_some_iff.mp hrun
  obtain ⟨code, hcode, hrun⟩ := Option.bind_eq_some_iff.mp hrun
  obtain ⟨l, hload, hrun⟩ := Option.bind_eq_some_iff.mp hrun
  obtain ⟨⟨e, form⟩, hform, hrun⟩ := Option.bind_eq_some_iff.mp hrun
  obtain ⟨⟨e', form'⟩, hform', hrun⟩ := Option.map_eq_some_iff.mp hrun
  obtain ⟨hchar, hlong⟩ := Prod.mk.inj hrun
  replace hcheck := ok_of_toOption hcheck
  replace hcode := ok_of_toOption hcode
  replace hload := ok_of_toOption hload
  obtain ⟨ht, ha⟩ := Registry.of_integer? hchar
  obtain ⟨hu, hb⟩ := Registry.of_integer? hlong
  obtain ⟨hmem, he, hform⟩ := mem_of_compoundsOf (List.mem_of_mem_head? hform)
  obtain ⟨hmem', he', hform'⟩ := mem_of_spelledOutsOf (List.mem_of_mem_head? hform')
  obtain ⟨hiff, -⟩ := compound_eq_spelledOut_iff hcheck hcode hload .shr (by decide) _ _ _ _ ht ha hu hb
  refine ⟨tree, registry, code, l, e, e', form, form', hcheck, hcode, hload, hmem, hmem', hform, hform',
    fun c k st hregistry => ?_⟩
  refine hiff.mp (by decide) c k "x" e e' form form' st hregistry ?_ hform hform'
  have hc : registry.Consistent := by
    obtain ⟨u, -, hcheck⟩ := Machine.except_bind_eq_ok.mp hcheck
    obtain ⟨herrors, rfl, rfl⟩ := accepted_of_check hcheck
    obtain ⟨G, hsound, -⟩ := Typing.signed_of_analyze herrors
    exact hsound.consistent
  subst hregistry
  exact Evaluation.twins_of_variable hc hb he he' k st

/-- Minus one that is divided by two, in either form. In place it is divided as an `int`; spelled out,
the operands meet in an unsigned type. -/
theorem Compilation.divided_apart :
    ∃ tree registry code limits l, (do check ⟨.lp64, 64⟩ (← parse
        "int f(int x, unsigned u) { int y; y = x; x /= u; y = y / u; return x == y; }")) =
          .ok (tree, registry) ∧
      Lowering.lower registry tree = .ok code ∧ Machine.load code limits = .ok l ∧
      (Machine.call l.program l.state "f" [-1, 2]).1 = .ok 0 := by
  have hrun : ((do check ⟨.lp64, 64⟩ (← parse
      "int f(int x, unsigned u) { int y; y = x; x /= u; y = y / u; return x == y; }")).toOption.bind
        fun x => (Lowering.lower x.2 x.1).toOption.bind fun code =>
          (Machine.load code ⟨128, 4, 1000⟩).toOption.map fun l =>
            ((Program.ofLoaded x.2 x.1 l).evaluate 0 l.state "f" [-1, 2]).bind (·.1.toOption)) =
      some (some 0) := by decide +kernel
  obtain ⟨⟨tree, registry⟩, hcheck, hrun⟩ := Option.bind_eq_some_iff.mp hrun
  obtain ⟨code, hcode, hrun⟩ := Option.bind_eq_some_iff.mp hrun
  obtain ⟨l, hload, heval⟩ := Option.map_eq_some_iff.mp hrun
  replace hcheck := ok_of_toOption hcheck
  replace hcode := ok_of_toOption hcode
  obtain ⟨x, heval, hx⟩ := Option.bind_eq_some_iff.mp heval
  have hresult : ((Program.ofLoaded registry tree l).evaluate 0 l.state "f" [-1, 2]).map (·.1) =
      some (.ok 0) := by
    rw [heval, Option.map_some, ok_of_toOption hx]
  obtain ⟨steps, l', hload', hcall⟩ :=
    exists_call_of_evaluate hcheck hcode (ok_of_toOption hload) hresult
  exact ⟨tree, registry, code, _, l', hcheck, hcode, hload', hcall⟩

end MiniC
