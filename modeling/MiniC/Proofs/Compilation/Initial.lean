import MiniC.Proofs.Compilation.Addresses
import MiniC.Proofs.Evaluation.Initial
/-!
Initial values of globals and locals. Main statement: an initializer of literals gives the scalars of a
local, which its code fills, the bytes that the image of a global with this initializer has; neither
reaches a byte outside the object.
-/
namespace MiniC

open Code (Function Label)
open Evaluation (Program Room Scopes Store Tenable)
open Lowering (Agrees InPart Static.image filled placed slot?)
open Machine (Loaded Routine nullGuard)
open Simulation (Reached Setting Stand)
open Syntax (CompilationUnit Initializer VarDecl)
open Typing (Initializes Node)

/-- Globals have initial values that are constant. -/
theorem Typing.exists_global {E : Env} {u : CompilationUnit} (h : IsUnit E u) {vs : List VarDecl}
    {span : Span} (hd : .declaration ⟨.vars vs, span⟩ ∈ u.decls) {v : VarDecl} (hv : v ∈ vs) :
    ∃ C t, C.isGlobal = true ∧ v.resolved = some t ∧ Initializes? E C t v.init := by
  have hall {C : Site} {vs : List VarDecl} (hC : C.isGlobal = true) (hvs : IsVars E C vs)
      (hv : v ∈ vs) : ∃ C t, C.isGlobal = true ∧ v.resolved = some t ∧ Initializes? E C t v.init := by
    induction vs generalizing C with
    | nil => cases hv
    | cons first vs ih =>
      cases hvs with
      | cons hresolved _ _ hinit hrest =>
        have hC' : (C.afterVar first).isGlobal = true := by
          rw [Site.afterVar, C.isGlobal_declare, hC]
        rcases List.mem_cons.mp hv with rfl | hv
        · exact ⟨_, _, hC', hresolved, hinit⟩
        · exact ih hC' hrest hv
  cases h _ hd with
  | vars hvars => exact hall rfl hvars hv

namespace Lowering

variable {E : Typing.Env} {C : Typing.Site} {t : TypeId} {i : Initializer} {bytes : List UInt8}

theorem InPart.filled {r : Registry} (hc : r.Consistent) (h : InPart 0 (r.sizeOf t) (placed r t 0 i)) :
    InPart 0 (r.sizeOf t) (filled r t i) := by
  unfold Lowering.filled
  refine InPart.append ?_ h
  split
  · exact inPart_zeroed hc
  · exact inPart_nil _ _

/-- Nothing outside the object changes. -/
theorem InPart.getElem?_overlay {start size : Nat} {ps : List (Nat × UInt8)} {memory : Array UInt8}
    {offset o : Nat} (h : InPart offset size ps) (ho : o < start + offset ∨ start + offset + size ≤ o) :
    (Bytes.overlay memory start ps)[o]? = memory[o]? := by
  refine Bytes.getElem?_overlay_of_ne fun x hx => ?_
  have hplace := h x hx
  omega

/-- What an image does not mention is zero. -/
theorem Static.image_zero {r : Registry} (hc : r.Consistent) (h : image r t i = .ok bytes) :
    bytes.length = r.sizeOf t ∧ ∀ o < r.sizeOf t, (∀ x ∈ placed r t 0 i, x.1 ≠ o) →
      bytes[o]? = some 0 := by
  rw [image_eq hc h]
  refine ⟨by simp, fun o ho hnot => ?_⟩
  rw [Array.getElem?_toList, Bytes.getElem?_overlay_of_ne (by simpa using hnot),
    Array.getElem?_replicate, if_pos ho]

end Lowering

namespace Simulation

/-- The slot that a name is bound to is that of the local's number. -/
theorem slot_of_declare {scopes : Scopes} {j : Nat} {k : Evaluation.Counters} {s : Lowering.State}
    {name : String} {t : Code.Temp} (h : Agrees (scopes.declare name j) k s)
    (ht : slot? s.slots name = some t) :
    (Lowering.allocations s.code.toList)[j]? = some t := by
  have hslot := h.bindings.slot? name
  cases scopes with
  | nil =>
    replace hslot : slot? s.slots name = none := hslot
    rw [hslot] at ht
    cases ht
  | cons scope outer =>
    have hfound : (Evaluation.Scopes.declare (scope :: outer) name j).findSome? (·.lookup name) =
        some j := by
      simp [Evaluation.Scopes.declare]
    rw [hfound] at hslot
    obtain ⟨t', ht', hj⟩ := hslot
    rw [ht] at ht'
    obtain rfl := Option.some.inj ht'
    exact hj

/-- The bytes of a local's storage, and of the rest of memory, once its declaration has run: there is
room for it at `start`, its scalars are those of the image, and all else is as it was. -/
structure Stored (r : Registry) (ty : TypeId) (bytes : List UInt8) (start : Nat)
    (before after : Machine.Memory) : Prop where
  room : Room before start (r.sizeOf ty)
  leaves : ∀ o, r.IsLeaf ty o → after.bytes[start + o]? = bytes[o]?
  outside : ∀ o, o < start ∨ start + r.sizeOf ty ≤ o → after.bytes[o]? = before.bytes[o]?

theorem stored_of_filled {r : Registry} {ty : TypeId} {i : Initializer} {bytes : List UInt8}
    {start : Nat} {before : Machine.Memory} (hc : r.Consistent)
    (himage : Static.image r ty i = .ok bytes) (hin : InPart 0 (r.sizeOf ty) (placed r ty 0 i))
    (hroom : Room before start (r.sizeOf ty)) :
    Stored r ty bytes start before ⟨Bytes.overlay before.bytes start (filled r ty i)⟩ where
  room := hroom
  leaves o ho := Lowering.filled_eq_image hc himage (hin.filled hc) hroom.fits ho
  outside o ho := (hin.filled hc).getElem?_overlay (by simpa using ho)

/-- The machine at the code of a declaration with an initializer of literals fills the local's slot,
unless the stack is full. -/
theorem meets_literal {p : Program} {code : Code.Module} {l : Loaded} (hlinked : Linked p code l.program)
    {G : List Symbol} {C : Typing.Site} (hc : p.registry.Consistent) {name : String}
    {type : Syntax.TypeExpr} {span : Span} {ty : TypeId} {i : Initializer} {bytes : List UInt8}
    (hi : Initializes ⟨p.registry, G⟩ C ty i) (hliteral : i.isLiteral = true)
    (himage : Static.image p.registry ty i = .ok bytes) {g : Function} (hg : g ∈ code.functions)
    {returns : TypeId} {targets : Option (Label × Label)} {scopes : Scopes}
    {k : Evaluation.Counters} {s s' : Lowering.State} (hk : Agrees scopes k s)
    (hrun : Lowering.localVar ⟨p.registry, returns, targets.map (·.1), targets.map (·.2)⟩
      ⟨name, type, some i, span, some ty⟩ s = .ok ((), s')) (hstand : Stand code g s')
    {t : Code.Temp} (ht : slot? s'.slots name = some t) {f : Machine.Frame} {m : Machine.State}
    (hreached : Reached g s f) (hstack : nullGuard ≤ m.stack)
    (hwords : m.memory.size ≤ Layout.maxObjectSize)
    (hslot : ∀ address, f.slots.getD t none = some address →
      ∃ start, address = Int64.ofNat start ∧ Room m.memory start (p.registry.sizeOf ty)) :
    (∃ f' m' start, Machine.Leads l.program m.steps (Routine.ofFunction g) f m f' m' ∧
      f'.pc = s'.code.size ∧ f'.slots.getD t none = some (Int64.ofNat start) ∧
      Stored p.registry ty bytes start m.memory m'.memory) ∨
    ∃ u, Machine.Finishes l.program Machine.anything (Routine.ofFunction g) f m
      (.error (.stackOverflow (p.registry.sizeOf ty))) u := by
  let M := Setting.ofFunction p code l g 0 m
  let c := p.context 0 (p.callDepth - m.depth) returns scopes targets.isSome
  have hfits : Fits M targets c := hlinked.fits ⟨rfl, rfl, rfl⟩ returns scopes targets
  have hdeclares := runs_localVar hfits ⟨name, type, some i, span, some ty⟩ hrun hk
  have hat := hreached.at code l (p := p) hk
    (hdeclares.grows.code.trans hstand.code) 0 m
  have hmeets := hdeclares.meets (hlinked.hosts hg hstand 0 m) hat
  have hnumber : M.slots[k.locals]? = some t :=
    Lowering.getElem?_of_prefix (hstand.code.filterMap _) (slot_of_declare hdeclares.agrees ht)
  have htenable : Tenable (M.store f m) k.locals (p.registry.sizeOf ty) := by
    refine ⟨hstack, hwords, fun address haddress => hslot address ?_⟩
    simpa [Setting.store, hnumber] using haddress
  rcases Evaluation.localVar_literal (c := c) hc hi hliteral himage
    htenable with ⟨start, st', hdone, hroom, hhome, hmemory⟩ | hfull
  · rw [hdone] at hmeets
    obtain ⟨f', m', hgoes, hpc, -⟩ := hmeets
    refine .inl ⟨f', m', start, hgoes.leads, hpc, ?_, ?_⟩
    · rw [hgoes.stands.homes k.locals t hnumber, hhome]
    · rw [hgoes.stands.memory, hmemory]
      exact stored_of_filled hc himage (Lowering.inPart_placed hc ty i hi 0) hroom
  · rw [hfull] at hmeets
    obtain ⟨u, hfinishes, -⟩ := hmeets
    exact .inr ⟨u, hfinishes⟩

end Simulation

/-- For a variable of an accepted source whose initializer consists of literals: if it is a global, its
initializer has an image. Putting the initializer into any bytes, wherever the object lies in them,
changes none outside the object. Where there is an image, it is as long as the object, and zero wherever
the initializer mentions nothing; and wherever code stands in a function that declares a local with that
type and initializer, the machine gets to the end of that code with the scalars of the image in the
local's storage and the rest of memory as it was, unless the stack has no room for the local. -/
theorem Compilation.local_eq_image {layout : Layout.Config} {source : String}
    {tree : CompilationUnit} {registry : Registry} {code : Code.Module} {limits : Machine.Limits}
    {l : Loaded} (h : (do check layout (← parse source)) = .ok (tree, registry))
    (hcode : Lowering.lower registry tree = .ok code) (hload : Machine.load code limits = .ok l)
    {v : VarDecl} (hv : .var v ∈ Node.ofUnit tree) {ty : TypeId} (hty : v.resolved = some ty)
    {i : Initializer} (hi : v.init = some i) (hliteral : i.isLiteral = true) :
    (∀ vs span, .declaration ⟨.vars vs, span⟩ ∈ tree.decls → v ∈ vs →
        ∃ bytes, Static.image registry ty i = .ok bytes) ∧
      (∀ offset image image', Lowering.Static.fill registry ty offset i image = .ok image' →
        ∀ o, o < offset ∨ offset + registry.sizeOf ty ≤ o → image'[o]? = image[o]?) ∧
      ∀ bytes, Static.image registry ty i = .ok bytes →
        bytes.length = registry.sizeOf ty ∧
        (∀ o < registry.sizeOf ty, (∀ x ∈ placed registry ty 0 i, x.1 ≠ o) → bytes[o]? = some 0) ∧
        ∀ g ∈ code.functions, ∀ returns (targets : Option (Label × Label)) scopes k s s',
          Agrees scopes k s →
          Lowering.localVar ⟨registry, returns, targets.map (·.1), targets.map (·.2)⟩ v s =
            .ok ((), s') →
          Stand code g s' → ∀ t, slot? s'.slots v.name = some t →
          ∀ f m, Reached g s f → nullGuard ≤ m.stack → m.memory.size ≤ Layout.maxObjectSize →
          (∀ address, f.slots.getD t none = some address →
            ∃ start, address = Int64.ofNat start ∧ Room m.memory start (registry.sizeOf ty)) →
          (∃ f' m' start, Machine.Leads l.program m.steps (Routine.ofFunction g) f m f' m' ∧
            f'.pc = s'.code.size ∧ f'.slots.getD t none = some (Int64.ofNat start) ∧
            Simulation.Stored registry ty bytes start m.memory m'.memory) ∨
          ∃ u, Machine.Finishes l.program Machine.anything (Routine.ofFunction g) f m
            (.error (.stackOverflow (registry.sizeOf ty))) u := by
  obtain ⟨u, -, hcheck⟩ := Machine.except_bind_eq_ok.mp h
  obtain ⟨herrors, rfl, rfl⟩ := accepted_of_check hcheck
  obtain ⟨G, hsound, hunit⟩ := Typing.judged_of_analyze herrors
  have hlinked := Simulation.linked_of_load herrors hcode hload
  have hc := hsound.consistent
  obtain ⟨name, type, init, span, resolved⟩ := v
  obtain rfl : resolved = some ty := hty
  obtain rfl : init = some i := hi
  obtain ⟨C, ty', hty', -, hinit⟩ := Typing.sensible_unit hunit _ hv
  obtain rfl := Option.some.inj hty'
  have hinitializes : Initializes ⟨(Typing.analyze layout u).registry, G⟩ C ty i := by
    cases hinit with
    | some hi => exact hi
  refine ⟨fun vs span hd hmem => ?_, fun offset image image' hfill o ho => ?_, fun bytes himage => ?_⟩
  · obtain ⟨C', t, hglobal, ht, hi'⟩ := Typing.exists_global hunit hd hmem
    obtain rfl := Option.some.inj ht
    cases hi' with
    | some hi' =>
      obtain ⟨image, himage⟩ := Lowering.fills hc hglobal ty i hi' 0 (Array.replicate _ 0)
      exact ⟨image.toList, by rw [Static.image, himage]; rfl⟩
  · rw [Lowering.Static.fill_eq hc ty i _ _ _ hfill]
    have hin := Lowering.inPart_placed hc ty i hinitializes offset
    exact hin.getElem?_overlay (by rwa [Nat.zero_add])
  · obtain ⟨hlength, hzero⟩ := Lowering.Static.image_zero hc himage
    refine ⟨hlength, hzero, ?_⟩
    intro g hg returns targets scopes k s s' hk hrun hstand t ht f m hreached hstack hwords hslot
    exact Simulation.meets_literal hlinked hc hinitializes hliteral himage hg hk hrun hstand ht hreached
      hstack hwords hslot

def Compilation.varsOf (tree : CompilationUnit) : List VarDecl :=
  (Node.ofUnit tree).filterMap fun
    | .var v => some v
    | _ => none

theorem Compilation.var_of_varsOf {tree : CompilationUnit} {v : VarDecl} (h : v ∈ varsOf tree) :
    .var v ∈ Node.ofUnit tree := by
  obtain ⟨node, hnode, heq⟩ := List.mem_filterMap.mp h
  cases node with
  | var w =>
    obtain rfl := Option.some.inj heq
    exact hnode
  | expr | function => cases heq

/-- A global, and a local with the same literal at the beginning of a function. -/
theorem Compilation.int_eq_image :
    ∃ tree registry code l v ty i, (do check ⟨.lp64, 64⟩ (← parse
        "int n = 77; int f(void) { int n = 77; return n; }")) = .ok (tree, registry) ∧
      Lowering.lower registry tree = .ok code ∧ Machine.load code ⟨128, 4, 1000⟩ = .ok l ∧
      .var v ∈ Node.ofUnit tree ∧ v.resolved = some ty ∧ v.init = some i ∧ i.isLiteral = true ∧
      Static.image registry ty i = .ok [77, 0, 0, 0] ∧
      ∃ g ∈ code.functions, ∀ m : Machine.State, nullGuard ≤ m.stack →
        m.memory.size ≤ Layout.maxObjectSize →
        (∃ f' m' start, Machine.Leads l.program m.steps (Routine.ofFunction g)
            (Machine.Frame.enter (Routine.ofFunction g) []) m f' m' ∧ f'.pc = 2 ∧
          f'.slots.getD 0 none = some (Int64.ofNat start) ∧
          Simulation.Stored registry ty [77, 0, 0, 0] start m.memory m'.memory) ∨
        ∃ u, Machine.Finishes l.program Machine.anything (Routine.ofFunction g)
          (Machine.Frame.enter (Routine.ofFunction g) []) m
          (.error (.stackOverflow (registry.sizeOf ty))) u := by
  let before : Lowering.State := { Lowering.State.initial with slots := [[]] }
  let emitted : List Code.Inst := [.alloca 0 4 4, .store (.temp 0) 0 (.const 77) 4]
  let stores (r : Registry) (v : VarDecl) : Option Bool :=
    v.resolved.bind fun ty => v.init.bind fun i => (Static.image r ty i).toOption.bind fun bytes =>
      (Lowering.localVar ⟨r, Registry.cInt, none, none⟩ v before).toOption.map fun x =>
        decide ((v.name = "n" ∧ i.isLiteral = true ∧ bytes = [77, 0, 0, 0]) ∧
          x.2.code.toList = emitted ∧ x.2.temps = 1 ∧ x.2.data.size = 0 ∧ x.2.slots = [[("n", 0)]])
  have hrun : ((do check ⟨.lp64, 64⟩ (← parse "int n = 77; int f(void) { int n = 77; return n; }")
      ).toOption.bind fun x : CompilationUnit × Registry =>
        (Lowering.lower x.2 x.1).toOption.bind fun code : Code.Module =>
          (Machine.load code ⟨128, 4, 1000⟩).toOption.map fun _ =>
            ((varsOf x.1).head?.bind (stores x.2),
              code.functions.map fun g : Function => (g.temps, g.body.take 2))) =
      some (some true, [(3, emitted)]) := by
    decide +kernel
  obtain ⟨⟨tree, registry⟩, hcheck, hrun⟩ := Option.bind_eq_some_iff.mp hrun
  obtain ⟨code, hcode, hrun⟩ := Option.bind_eq_some_iff.mp hrun
  obtain ⟨l, hload, hrun⟩ := Option.map_eq_some_iff.mp hrun
  replace hcheck := ok_of_toOption hcheck
  replace hcode := ok_of_toOption hcode
  replace hload := ok_of_toOption hload
  obtain ⟨hvar, hfunctions⟩ := Prod.mk.inj hrun
  obtain ⟨v, hv, hvar⟩ := Option.bind_eq_some_iff.mp hvar
  obtain ⟨ty, hty, hvar⟩ := Option.bind_eq_some_iff.mp hvar
  obtain ⟨i, hi, hvar⟩ := Option.bind_eq_some_iff.mp hvar
  obtain ⟨bytes, himage, hvar⟩ := Option.bind_eq_some_iff.mp hvar
  obtain ⟨⟨⟨⟩, s'⟩, hlower, hvar⟩ := Option.map_eq_some_iff.mp hvar
  obtain ⟨⟨hname, hliteral, rfl⟩, hemitted, htemps, hdata, hslots⟩ := of_decide_eq_true hvar
  obtain ⟨g, hg, hshape⟩ := List.map_eq_singleton_iff.mp hfunctions
  obtain ⟨hroom, hbody⟩ := Prod.mk.inj hshape
  have hmem : .var v ∈ Node.ofUnit tree := var_of_varsOf (List.mem_of_mem_head? hv)
  have hmem' : g ∈ code.functions := hg ▸ List.mem_cons_self
  have himage' := ok_of_toOption himage
  refine ⟨tree, registry, code, l, v, ty, i, hcheck, hcode, hload, hmem, hty, hi, hliteral, himage',
    g, hmem', fun m hstack hwords => ?_⟩
  have hstand : Stand code g s' := by
    refine ⟨?_, ?_, ?_⟩
    · rw [hemitted, ← hbody]
      exact List.take_prefix 2 g.body
    · rw [htemps, hroom]
      decide
    · rw [Array.eq_empty_of_size_eq_zero hdata]
      exact List.nil_prefix
  have hpc : s'.code.size = 2 := by
    rw [← Array.length_toList, hemitted]
    rfl
  obtain ⟨-, -, himages⟩ := local_eq_image hcheck hcode hload hmem hty hi hliteral
  obtain ⟨-, -, hlocal⟩ := himages _ himage'
  have hlocal := hlocal g hmem' Registry.cInt none [[]] ⟨0, 0⟩ before s'
    ⟨⟨rfl, rfl, nofun, .nil⟩, .cons .nil .nil⟩ (ok_of_toOption hlower) hstand 0
    (by rw [hslots, hname]; rfl) (Machine.Frame.enter (Routine.ofFunction g) []) m
    ⟨rfl, by simp [Machine.Frame.enter, Routine.ofFunction],
      by simp [Machine.Frame.enter, Routine.ofFunction], by simp [before]⟩ hstack hwords
    (fun address haddress => by
      simp [Machine.Frame.enter, Routine.ofFunction, Array.getD_eq_getD_getElem?,
        hroom] at haddress)
  rwa [hpc] at hlocal

end MiniC
