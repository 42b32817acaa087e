import MiniC.Proofs.Compilation.Addresses
import MiniC.Proofs.Compilation.Contracts
import MiniC.Proofs.Evaluation.Reduced
/-!
Ranges of values in compiled code. Main statements: where addresses have eight bytes, an integer is a
word of its type wherever it is computed, except where a pointer is added to an integer in place, and
a call yields a word of the type that the function returns; where addresses have four bytes, a pointer
or a `long` is what is read of an object into which it was stored exactly if it is in the range of its
type, and it is in that range unless the code computes an address last.
-/
namespace MiniC

open Code (Function Label)
open Evaluation (AddsPointer CallsHeld Held InWidth Program Scopes Unreduced Yielding lastOf)
open Lowering (Agrees)
open Machine (Frame Loaded Memory Routine)
open Simulation (Meets Reached Setting Stand)
open Syntax (CompilationUnit Expr FuncDecl TopDecl)
open Typing (Env HasType IsUnit Node Signed)

theorem Registry.Consistent.narrow {r : Registry} {t : TypeId} {a : Access} (hc : r.Consistent)
    (ha : r.access? t = some a) (h : a.size < 8) : a.size = 1 ∨ a.size = 2 ∨ a.size = 4 := by
  have hmem := (hc.access_size ha).2
  simp only [Registry.widths, List.mem_cons, List.not_mem_nil, or_false] at hmem
  omega

/-- Under M68k pointers and `long` have four bytes. -/
theorem Registry.Consistent.access_of_address {r : Registry} {t : TypeId} (hc : r.Consistent)
    (hmodel : r.config.model = .m68k)
    (ht : r.isPointer t = true ∨ t = r.cLong true ∨ t = r.cLong false) :
    ∃ a, r.access? t = some a ∧ a.size = 4 := by
  have hlong (signed : Bool) : r.access? (r.cLong signed) = some ⟨4, signed⟩ := by
    unfold Registry.cLong
    rw [hmodel]
    exact hc.scalars.access_int (by decide)
  rcases ht with hpointer | rfl | rfl
  · unfold Registry.isPointer at hpointer
    cases hty : r.ty t with
    | pointer pointee =>
      refine ⟨⟨4, false⟩, ?_, rfl⟩
      simp only [Registry.access?, hty, hmodel]
      rfl
    | void | int | array | struct =>
      rw [hty] at hpointer
      cases hpointer
  · exact ⟨_, hlong true, rfl⟩
  · exact ⟨_, hlong false, rfl⟩

namespace Evaluation

variable {p : Program} {G : List Symbol}

/-- A call of a function yields a word of the type that the function returns. -/
theorem Program.Answers.held {name : String} {v : Int64} (h : p.Answers name v)
    (hsigned : Signed p.unit.decls G) {f : FuncDecl} (hf : .function f ∈ p.unit.decls)
    (hname : f.name = name) {t : TypeId} (ht : f.resolvedReturn = some t) {a : Access}
    (ha : p.registry.access? t = some a) : Held a v := by
  rcases h with rfl | ⟨g, hg, hname', w, rfl⟩
  · exact a.truncate_zero
  · obtain ⟨sym, hsym, sig, hsymbol, hkind, -, hreturns⟩ := hsigned.functions f hf
    obtain ⟨-, hreturns'⟩ :=
      Compilation.signature_of_declared hsigned hg hsym (hsymbol.trans (hname.trans hname'.symm)) hkind
    rw [hreturns', ← hreturns, ht]
    exact held_convert ha w

theorem Program.callsHeld (hsigned : Signed p.unit.decls G) (rounds room : Nat) (returns : TypeId)
    (scopes : Scopes) (inLoop : Bool) : CallsHeld (p.context rounds room returns scopes inLoop) G := by
  intro sym hsym sig hkind a ha vs st v st' hrun
  rcases answers_invoke hrun with rfl | ⟨f, hf, hname, w, rfl⟩
  · exact a.truncate_zero
  · obtain ⟨-, hreturns⟩ := Compilation.signature_of_declared hsigned hf hsym hname.symm hkind
    rw [hreturns]
    exact held_convert ha w

end Evaluation

namespace Simulation

variable {β : Type} {M : Setting} {targets : Option (Label × Label)} {n : Nat} {f : Frame}
  {m : Machine.State} {st : Evaluation.Store} {Q Q' : β → Evaluation.Store → Frame → Prop}
  {x : EStateM.Result Evaluation.Exit Evaluation.Store β}

/-- What holds of a result may be told from what was evaluated. -/
theorem Meets.told (hx : Meets M targets n f m st Q x)
    (h : ∀ b st' g, x = .ok b st' → Q b st' g → Q' b st' g) : Meets M targets n f m st Q' x := by
  rcases x with ⟨b, st'⟩ | ⟨e, st'⟩
  · obtain ⟨g, u, hgo, hq⟩ := hx
    exact ⟨g, u, hgo, h b st' g rfl hq⟩
  · cases e <;> exact hx

/-- An operand that code ends with holds the value that evaluation comes to. -/
theorem Linked.meets_value {p : Program} {code : Code.Module} {l : Loaded}
    (hlinked : Linked p code l.program) {g : Function} (hg : g ∈ code.functions) (returns : TypeId)
    (targets : Option (Label × Label)) {scopes : Scopes} {k : Evaluation.Counters}
    {s s' : Lowering.State} (hk : Agrees scopes k s) (rounds : Nat) {e : Expr} {v : Code.Operand}
    {f : Frame} {m : Machine.State} :
    let c := p.context rounds (p.callDepth - m.depth) returns scopes targets.isSome
    let M := Setting.ofFunction p code l g rounds m
    Lowering.valueOf p.registry (Lowering.expr (inCode c targets) e) s = .ok (v, s') →
      Stand code g s' → Reached g s f →
      Meets M targets s.temps f m (M.store f m)
        (fun w _ f' => f'.pc = s'.code.size ∧ Machine.value l.program f' v = .ok w)
        ((Evaluation.value c e k).1 (M.store f m)) := by
  intro c M hcode hstand hreached
  have hfits : Simulation.Fits M targets c := hlinked.fits ⟨rfl, rfl, rfl⟩ returns scopes targets
  have hruns := runs_valueOf c.registry (runs_expr hfits e) hcode hk
  have hat := hreached.at code l (p := p) hk (hruns.grows.code.trans hstand.code) rounds m
  refine (hruns.meets (hlinked.hosts hg hstand rounds m) hat).imp fun w st' f' m' _ hq => ?_
  exact ⟨hq.1, hq.2.value⟩

end Simulation

/-! A number that is converted. -/

namespace Simulation

variable {registry : Registry} {e : Expr} {n : Int64} {ty : TypeId} {a : Access}

/-- The expression converts that number to that type. -/
def IsCastOf (n : Int64) (ty : TypeId) (e : Expr) : Prop :=
  ∃ target span span' t, e = ⟨.cast target ⟨.integer n, span', some t⟩, span, some ty⟩

/-- The beginning of a function without parameters. -/
def entry : Lowering.State := { Lowering.State.initial with slots := [[]] }

theorem agrees_entry : Agrees [[]] ⟨0, 0⟩ entry :=
  ⟨⟨rfl, rfl, List.forall_mem_nil _, .nil⟩, .cons .nil .nil⟩

theorem stand_entry (code : Code.Module) (g : Function) : Stand code g entry :=
  ⟨List.nil_prefix, Nat.zero_le _, List.nil_prefix⟩

theorem reached_entry (g : Function) : Reached g entry (Frame.enter (Routine.ofFunction g) []) :=
  ⟨rfl, by simp [Frame.enter, Routine.ofFunction], by simp [Frame.enter, Routine.ofFunction],
    by simp [entry]⟩

theorem IsCastOf.lastOf_eq (he : IsCastOf n ty e) : lastOf e = e := by
  obtain ⟨target, span, span', t, rfl⟩ := he
  simp [lastOf, Evaluation.lastOfKind]

theorem IsCastOf.not_addsPointer (he : IsCastOf n ty e) : ¬ AddsPointer registry (lastOf e) := by
  rw [he.lastOf_eq]
  obtain ⟨target, span, span', t, rfl⟩ := he
  exact id

theorem IsCastOf.not_unreduced (he : IsCastOf n ty e) (ha : registry.access? ty = some a) :
    ¬ Unreduced registry (lastOf e) := by
  rw [he.lastOf_eq]
  obtain ⟨target, span, span', t, rfl⟩ := he
  rintro (⟨u, hu, harray⟩ | hform)
  · obtain rfl := Option.some.inj hu
    rw [(Evaluation.scalar_of_access ha).1] at harray
    cases harray
  · exact hform

theorem not_isVoid_of_access (ha : registry.access? ty = some a) : registry.isVoid ty = false := by
  unfold Registry.access? at ha
  unfold Registry.isVoid
  cases hty : registry.ty ty <;> simp_all

theorem valueOf_cast {c : Lowering.Context} {s : Lowering.State} (he : IsCastOf n ty e)
    (hc : c.registry = registry) (ha : registry.access? ty = some a) (hnarrow : a.size < 8) :
    Lowering.valueOf registry (Lowering.expr c e) s = .ok (.const (a.truncate n), s) := by
  obtain ⟨target, span, span', t, rfl⟩ := he
  subst hc
  have hconvert : Lowering.convert c.registry (.const n) ty = pure (.const (a.truncate n)) := by
    unfold Lowering.convert
    simp only [ha, if_neg (Nat.not_le_of_lt hnarrow)]
  have hcast : Lowering.cast c.registry ty (.const n) = pure (.const (a.truncate n)) := by
    unfold Lowering.cast
    rw [not_isVoid_of_access ha]
    exact hconvert
  rw [Lowering.expr, Lowering.exprKind, Lowering.expr, Lowering.exprKind]
  simp only [Lowering.valueOf, pure_bind, hcast, map_pure]
  rfl

theorem value_cast {c : Evaluation.Context} {k : Evaluation.Counters} {st : Evaluation.Store}
    (he : IsCastOf n ty e) (ha : c.registry.access? ty = some a) :
    (Evaluation.value c e k).1 st = .ok (a.truncate n) st := by
  obtain ⟨target, span, span', t, rfl⟩ := he
  have hconvert : Evaluation.convert c.registry n ty = a.truncate n := by
    unfold Evaluation.convert
    rw [ha]
  rw [← hconvert]
  unfold Evaluation.value
  rw [Evaluation.expr, Evaluation.exprKind, Evaluation.expr, Evaluation.exprKind]
  simp only [Evaluation.cast, not_isVoid_of_access ha]
  rfl

end Simulation

/-- Under LP64 every integer that compiled code computes, wherever its code stands in a function and in
whatever state the machine begins it with the locals in scope, is a word of its type, unless what the
expression evaluates last adds a pointer to an integer in place. And what a call from outside yields,
with whatever arguments, is a word of the type that the function returns, in any case. -/
theorem Compilation.integers_reduced {layout : Layout.Config} {source : String}
    {tree : CompilationUnit} {registry : Registry} {code : Code.Module} {limits : Machine.Limits}
    {l : Loaded} (h : (do check layout (← parse source)) = .ok (tree, registry))
    (hcode : Lowering.lower registry tree = .ok code) (hload : Machine.load code limits = .ok l)
    (hmodel : layout.model = .lp64) :
    (∀ g ∈ code.functions, ∀ returns targets scopes k s, Agrees scopes k s → ∀ rounds room,
      let p := Program.ofLoaded registry tree l
      let c := p.context rounds room returns scopes targets.isSome
      ∀ e t a, .expr e ∈ Node.ofUnit tree → e.ty = some t → registry.isInteger t = true →
        registry.access? t = some a → ¬ AddsPointer registry (lastOf e) →
        ∀ v s', Lowering.valueOf registry (Lowering.expr (Simulation.inCode c targets) e) s =
            .ok (v, s') → Stand code g s' →
          ∀ f m, Reached g s f → p.callDepth - m.depth = room →
            let M := Setting.ofFunction p code l g rounds m
            Meets M targets s.temps f m (M.store f m) (fun w _ f' => f'.pc = s'.code.size ∧
                Machine.value l.program f' v = .ok w ∧ a.truncate w = w ∧ (a.size < 8 → InWidth a w))
              ((Evaluation.value c e k).1 (M.store f m))) ∧
      ∀ f, .function f ∈ tree.decls → ∀ t a, f.resolvedReturn = some t →
        registry.isInteger t = true → registry.access? t = some a → ∀ state args v,
          (Machine.call l.program state f.name args).1 = .ok v →
            a.truncate v = v ∧ (a.size < 8 → InWidth a v) := by
  obtain ⟨u, -, hcheck⟩ := Machine.except_bind_eq_ok.mp h
  obtain ⟨herrors, rfl, rfl⟩ := accepted_of_check hcheck
  obtain ⟨G, hsound, hunit, hsigned, -⟩ := Typing.signed_of_analyze herrors
  have hlinked := Simulation.linked_of_load herrors hcode hload
  have hc := hsound.consistent
  have hword {t : TypeId} {a : Access} {w : Int64}
      (ha : (Typing.analyze layout u).registry.access? t = some a) (hw : Held a w) :
      a.truncate w = w ∧ (a.size < 8 → InWidth a w) :=
    ⟨hw, fun hnarrow => (Evaluation.held_iff_inWidth (hc.narrow ha hnarrow) w).mp hw⟩
  refine ⟨?_, ?_⟩
  · intro g hg returns targets scopes k s hk rounds room p c e t a he ht hint ha hadds v s' hvalue
      hstand f m hreached hroom M
    subst hroom
    obtain ⟨C, t', htyped⟩ := Typing.sensible_unit hunit _ he
    obtain rfl : t' = t := Option.some.inj (htyped.ty_eq.symm.trans ht)
    have hcalls : CallsHeld c G := Program.callsHeld hsigned rounds _ returns scopes targets.isSome
    refine (hlinked.meets_value hg returns targets hk rounds hvalue hstand hreached).told
      fun w st' f' hrun hq => ⟨hq.1, hq.2, hword ha ?_⟩
    refine Evaluation.held_integer (c := c) hc ?_ hcalls htyped hint ha hadds hrun
    exact (congrArg Layout.Config.model (Typing.config_of_analyze herrors)).trans hmodel
  · intro f hf t a ht hint ha state args v hcall
    obtain ⟨code', hcode', hcalls⟩ := Compilation.call_eq_evaluate h
    obtain rfl := Except.ok.inj (hcode.symm.trans hcode')
    obtain ⟨heval, -⟩ := hcalls limits l hload state f.name args
    replace heval := heval (by rw [hcall]; simp)
    rw [hcall] at heval
    exact hword ha ((Program.answers_evaluate heval).held hsigned hf rfl ht ha)

/-- What evaluation comes to is what a call comes to where it is given the steps. -/
theorem Compilation.exists_call_of_evaluate {layout : Layout.Config} {source name : String}
    {tree : CompilationUnit} {registry : Registry} {code : Code.Module} {limits : Machine.Limits}
    {l : Loaded} {rounds : Nat} {args : List Int64} {result : Except Machine.Fault Int64}
    (h : (do check layout (← parse source)) = .ok (tree, registry))
    (hcode : Lowering.lower registry tree = .ok code) (hload : Machine.load code limits = .ok l)
    (heval : ((Program.ofLoaded registry tree l).evaluate rounds l.state name args).map (·.1) =
      some result) :
    ∃ steps l', Machine.load code { limits with steps } = .ok l' ∧
      (Machine.call l'.program l'.state name args).1 = result := by
  obtain ⟨code', hcode', hcalls⟩ := call_eq_evaluate h
  obtain rfl := Except.ok.inj (hcode.symm.trans hcode')
  obtain ⟨⟨result, memory⟩, hrun, rfl⟩ := Option.map_eq_some_iff.mp heval
  obtain ⟨enough, hcall⟩ := (hcalls limits l hload l.state name args).2 rounds _ _ hrun
  obtain ⟨used, hcall⟩ := hcall enough (Nat.le_refl _)
  exact ⟨enough, _, Machine.load_withSteps hload enough, congrArg Prod.fst hcall⟩

/-- The expressions of a tree that convert a number. -/
def Compilation.castsOf (tree : CompilationUnit) (n : Int64) : List Expr :=
  (Node.ofUnit tree).filterMap fun
    | .expr ⟨.cast target ⟨.integer m, span', some t⟩, span, ty⟩ =>
      if m = n then some ⟨.cast target ⟨.integer m, span', some t⟩, span, ty⟩ else none
    | _ => none

theorem Compilation.mem_of_castsOf {tree : CompilationUnit} {n : Int64} {e : Expr} {ty : TypeId}
    (h : e ∈ castsOf tree n) (hty : e.ty = some ty) :
    .expr e ∈ Node.ofUnit tree ∧ Simulation.IsCastOf n ty e := by
  obtain ⟨node, hnode, heq⟩ := List.mem_filterMap.mp h
  split at heq
  · split at heq
    · rename_i hnumber
      obtain rfl := Option.some.inj heq
      subst hnumber
      obtain rfl := hty
      exact ⟨hnode, _, _, _, _, rfl⟩
    · cases heq
  · cases heq

/-- The functions of a tree that have that name. -/
def Compilation.functionsOf (tree : CompilationUnit) (name : String) : List FuncDecl :=
  tree.decls.filterMap fun
    | .function f => if f.name = name then some f else none
    | .declaration _ => none

theorem Compilation.mem_of_functionsOf {tree : CompilationUnit} {name : String} {f : FuncDecl}
    (h : f ∈ functionsOf tree name) : .function f ∈ tree.decls ∧ f.name = name := by
  obtain ⟨d, hd, heq⟩ := List.mem_filterMap.mp h
  cases d with
  | function g =>
    dsimp only at heq
    split at heq
    · obtain rfl := Option.some.inj heq
      exact ⟨hd, ‹_›⟩
    · cases heq
  | declaration d => cases heq

/-- How a type is read and written, if it is an integer. -/
def Registry.integer? (r : Registry) (t : TypeId) : Option Access :=
  if r.isInteger t then r.access? t else none

theorem Registry.of_integer? {r : Registry} {t : TypeId} {a : Access} (h : r.integer? t = some a) :
    r.isInteger t = true ∧ r.access? t = some a := by
  unfold integer? at h
  split at h
  · exact ⟨‹_›, h⟩
  · cases h

/-- A number that is converted to `char`, and a product of `int` that is returned as one. -/
theorem Compilation.ranges_of_conversions :
    ∃ tree registry code limits l e, (do check ⟨.lp64, 64⟩ (← parse
        "int g(void) { return (char)300; } char f(int n) { return n * 100; }")) = .ok (tree, registry) ∧
      Lowering.lower registry tree = .ok code ∧ Machine.load code limits = .ok l ∧
      .expr e ∈ Node.ofUnit tree ∧
      (∃ ty, Simulation.IsCastOf 300 ty e ∧ registry.access? ty = some ⟨1, true⟩) ∧
      InWidth ⟨1, true⟩ 44 ∧
      (Machine.call l.program l.state "f" [5]).1 = .ok (-12) ∧ InWidth ⟨1, true⟩ (-12) := by
  let shape (x : CompilationUnit × Registry) (l : Loaded) :=
    ([(castsOf x.1 300).head?.bind fun e => e.ty.bind x.2.integer?,
        (functionsOf x.1 "f").head?.bind fun f => f.resolvedReturn.bind x.2.integer?],
      ((Program.ofLoaded x.2 x.1 l).evaluate 0 l.state "f" [5]).bind (·.1.toOption))
  have hrun : ((do check ⟨.lp64, 64⟩ (← parse
      "int g(void) { return (char)300; } char f(int n) { return n * 100; }")).toOption.bind fun x =>
        (Lowering.lower x.2 x.1).toOption.bind fun code => code.functions.head?.bind fun _ =>
          (Machine.load code ⟨128, 4, 1000⟩).toOption.map fun l => shape x l) =
      some ([some ⟨1, true⟩, some ⟨1, true⟩], some (-12)) := by decide +kernel
  obtain ⟨⟨tree, registry⟩, hcheck, hrun⟩ := Option.bind_eq_some_iff.mp hrun
  obtain ⟨code, hcode, hrun⟩ := Option.bind_eq_some_iff.mp hrun
  obtain ⟨g, hg, hrun⟩ := Option.bind_eq_some_iff.mp hrun
  obtain ⟨l₀, hload, hshape⟩ := Option.map_eq_some_iff.mp hrun
  replace hcheck := ok_of_toOption hcheck
  replace hcode := ok_of_toOption hcode
  replace hload := ok_of_toOption hload
  simp only [shape, Prod.mk.injEq, List.cons.injEq, and_true] at hshape
  obtain ⟨⟨hcast, hfunction⟩, heval⟩ := hshape
  obtain ⟨e, he, hcast⟩ := Option.bind_eq_some_iff.mp hcast
  obtain ⟨t, ht, hcast⟩ := Option.bind_eq_some_iff.mp hcast
  obtain ⟨hint, ha⟩ := Registry.of_integer? hcast
  obtain ⟨f, hf, hfunction⟩ := Option.bind_eq_some_iff.mp hfunction
  obtain ⟨u, hu, hfunction⟩ := Option.bind_eq_some_iff.mp hfunction
  obtain ⟨hint', ha'⟩ := Registry.of_integer? hfunction
  obtain ⟨he, hcastOf⟩ := mem_of_castsOf (List.mem_of_mem_head? he) ht
  obtain ⟨hf, hname⟩ := mem_of_functionsOf (List.mem_of_mem_head? hf)
  obtain ⟨x, heval, hx⟩ := Option.bind_eq_some_iff.mp heval
  have hresult : ((Program.ofLoaded registry tree l₀).evaluate 0 l₀.state "f" [5]).map (·.1) =
      some (.ok (-12)) := by
    rw [heval, Option.map_some, ok_of_toOption hx]
  obtain ⟨steps, l, hload, hcall⟩ := exists_call_of_evaluate hcheck hcode hload hresult
  have hmem : g ∈ code.functions := List.mem_of_mem_head? hg
  obtain ⟨hvalues, hcalls⟩ := integers_reduced hcheck hcode hload rfl
  have hmeets := hvalues g hmem Registry.void none _ _ _ Simulation.agrees_entry 0
    (l.program.limits.callDepth - l.state.depth) e t ⟨1, true⟩ he ht hint ha hcastOf.not_addsPointer _ _
    (Simulation.valueOf_cast hcastOf rfl ha (by decide)) (Simulation.stand_entry code g) _ l.state
    (Simulation.reached_entry g) rfl
  dsimp only at hmeets
  rw [Simulation.value_cast hcastOf ha] at hmeets
  obtain ⟨f', m', -, -, -, -, hrange⟩ := hmeets
  obtain ⟨-, hrange'⟩ := hcalls f hf u ⟨1, true⟩ hu hint' ha' l.state [5] (-12) (hname ▸ hcall)
  exact ⟨tree, registry, code, _, l, e, hcheck, hcode, hload, he, ⟨t, hcastOf, ha⟩, hrange (by decide),
    hcall, hrange' (by decide)⟩

/-- What is read again of an object into which the value of a pointer or of a `long` was stored. Under
M68k that is the value itself exactly if this is in the range of the type of four bytes, which is so
unless the expression evaluates last what is left as it was computed: an address, a sum or difference
with an address in it, or a number too large for its type. -/
theorem Compilation.stored_value_eq_iff {layout : Layout.Config} {source : String}
    {tree : CompilationUnit} {registry : Registry} {code : Code.Module} {limits : Machine.Limits}
    {l : Loaded} (h : (do check layout (← parse source)) = .ok (tree, registry))
    (hcode : Lowering.lower registry tree = .ok code) (hload : Machine.load code limits = .ok l)
    (hmodel : layout.model = .m68k) {g : Function} (hg : g ∈ code.functions) (returns : TypeId)
    (targets : Option (Label × Label)) {scopes : Scopes} {k : Evaluation.Counters}
    {s : Lowering.State} (hk : Agrees scopes k s) (rounds room : Nat) :
    let p := Program.ofLoaded registry tree l
    let c := p.context rounds room returns scopes targets.isSome
    ∀ e t ty, .expr e ∈ Node.ofUnit tree → e.ty = some t → registry.Decays t ty →
      (registry.isPointer ty = true ∨ ty = registry.cLong true ∨ ty = registry.cLong false) →
      ∃ a, registry.access? ty = some a ∧ a.size = 4 ∧
        ∀ v s', Lowering.valueOf registry (Lowering.expr (Simulation.inCode c targets) e) s =
            .ok (v, s') → Stand code g s' →
          ∀ f m, Reached g s f → p.callDepth - m.depth = room →
            let M := Setting.ofFunction p code l g rounds m
            Meets M targets s.temps f m (M.store f m) (fun w _ f' => f'.pc = s'.code.size ∧
                Machine.value l.program f' v = .ok w ∧
                (¬ Unreduced registry (lastOf e) → InWidth a w) ∧
                ∀ (memory memory' : Memory) address, memory.store address a.size w = .ok memory' →
                  (memory'.load address a.size a.signed = .ok w ↔ InWidth a w))
              ((Evaluation.value c e k).1 (M.store f m)) := by
  obtain ⟨u, -, hcheck⟩ := Machine.except_bind_eq_ok.mp h
  obtain ⟨herrors, rfl, rfl⟩ := accepted_of_check hcheck
  obtain ⟨G, hsound, hunit, hsigned, -⟩ := Typing.signed_of_analyze herrors
  have hlinked := Simulation.linked_of_load herrors hcode hload
  have hc := hsound.consistent
  have hm68k : (Typing.analyze layout u).registry.config.model = .m68k :=
    (congrArg Layout.Config.model (Typing.config_of_analyze herrors)).trans hmodel
  intro p c e t ty he ht hdecays hty
  obtain ⟨a, ha, hsize⟩ := hc.access_of_address hm68k hty
  refine ⟨a, ha, hsize, fun v s' hvalue hstand f m hreached hroom => ?_⟩
  subst hroom
  intro M
  obtain ⟨C, t', htyped⟩ := Typing.sensible_unit hunit _ he
  obtain rfl : t' = t := Option.some.inj (htyped.ty_eq.symm.trans ht)
  have hcalls : CallsHeld c G := Program.callsHeld hsigned rounds _ returns scopes targets.isSome
  have hwidth (w : Int64) : Held a w ↔ InWidth a w :=
    Evaluation.held_iff_inWidth (.inr (.inr hsize)) w
  refine (hlinked.meets_value hg returns targets hk rounds hvalue hstand hreached).told
    fun w st' f' hrun hq => ⟨hq.1, hq.2, fun hreduced => ?_, fun memory memory' address hstore => ?_⟩
  · exact (hwidth w).mp (Evaluation.held_value (c := c) hc hcalls htyped hdecays ha hreduced hrun)
  · rw [Evaluation.load_store (hc.access_le ha) hstore, Except.ok.injEq]
    exact hwidth w

/-- A number above the range of a `long` that is converted to one. -/
theorem Compilation.stored_value_of_conversion :
    ∃ tree registry code l e, (do check ⟨.m68k, 64⟩ (← parse
        "long f(void) { return (long)4294967295; }")) = .ok (tree, registry) ∧
      Lowering.lower registry tree = .ok code ∧ Machine.load code ⟨128, 4, 1000⟩ = .ok l ∧
      .expr e ∈ Node.ofUnit tree ∧ Simulation.IsCastOf 4294967295 (registry.cLong true) e ∧
      InWidth ⟨4, true⟩ (-1) ∧
      ∀ (memory memory' : Memory) address, memory.store address 4 (-1) = .ok memory' →
        memory'.load address 4 true = .ok (-1) := by
  have hrun : ((do check ⟨.m68k, 64⟩ (← parse
      "long f(void) { return (long)4294967295; }")).toOption.bind fun x =>
        (Lowering.lower x.2 x.1).toOption.bind fun code => code.functions.head?.bind fun _ =>
          (Machine.load code ⟨128, 4, 1000⟩).toOption.bind fun _ =>
            (castsOf x.1 4294967295).head?.map fun e : Expr =>
              (e.ty == some (x.2.cLong true), x.2.integer? (x.2.cLong true), x.2.isArray (x.2.cLong true))) =
      some (true, some ⟨4, true⟩, false) := by decide +kernel
  obtain ⟨⟨tree, registry⟩, hcheck, hrun⟩ := Option.bind_eq_some_iff.mp hrun
  obtain ⟨code, hcode, hrun⟩ := Option.bind_eq_some_iff.mp hrun
  obtain ⟨g, hg, hrun⟩ := Option.bind_eq_some_iff.mp hrun
  obtain ⟨l, hload, hrun⟩ := Option.bind_eq_some_iff.mp hrun
  obtain ⟨e, he, hshape⟩ := Option.map_eq_some_iff.mp hrun
  replace hcheck := ok_of_toOption hcheck
  replace hcode := ok_of_toOption hcode
  replace hload := ok_of_toOption hload
  simp only [Prod.mk.injEq, beq_iff_eq] at hshape
  obtain ⟨ht, hint, harray⟩ := hshape
  obtain ⟨-, ha⟩ := Registry.of_integer? hint
  obtain ⟨he, hcastOf⟩ := mem_of_castsOf (List.mem_of_mem_head? he) ht
  have hdecays := Evaluation.decays_self harray
  obtain ⟨a, ha', -, hmeets⟩ := stored_value_eq_iff hcheck hcode hload rfl
    (List.mem_of_mem_head? hg) Registry.void none Simulation.agrees_entry 0
    (l.program.limits.callDepth - l.state.depth) e _ _ he ht hdecays (.inr (.inl rfl))
  obtain rfl : a = ⟨4, true⟩ := Option.some.inj (ha'.symm.trans ha)
  replace hmeets := hmeets _ _ (Simulation.valueOf_cast hcastOf rfl ha (by decide))
    (Simulation.stand_entry code g) _ l.state (Simulation.reached_entry g) rfl
  dsimp only at hmeets
  rw [Simulation.value_cast hcastOf ha] at hmeets
  obtain ⟨f', m', -, -, -, hrange, hstored⟩ := hmeets
  have hwidth : InWidth ⟨4, true⟩ (-1) := hrange (hcastOf.not_unreduced ha)
  exact ⟨tree, registry, code, l, e, hcheck, hcode, hload, he, hcastOf, hwidth,
    fun memory memory' address hstore => (hstored memory memory' address hstore).mpr hwidth⟩

end MiniC
