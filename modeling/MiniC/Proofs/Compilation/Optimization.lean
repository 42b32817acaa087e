import MiniC.Proofs.Compilation.Safety
import MiniC.Proofs.Machine.Folding
/-!
Optimization preserves behaviour. Main statements: if the functions of a program are in order, then the
program with all of them optimized at once refines it; and a freshly loaded machine answers every sequence
of calls alike at all levels of optimization, and takes no more steps for any of them.
-/
namespace MiniC.Machine

open Code (Function Inst Label Names Operand Orderly Rewrites Summary Temp Thins labelsOf readBy)
open Relation (ReflTransGen)

section Rewriting

variable {p : Program} {N : Names} {data : List Label} {S : Summary} {f : Function}
  {body body' final : List Inst}

theorem thins_refl (body : List Inst) : Thins (fun _ _ => False) Eq body body where
  entry := rfl
  nil h := h.symm
  cons h := .inr ⟨_, h.symm, fun _ => rfl⟩
  label hbody _ := ⟨_, _, hbody, rfl⟩

theorem silent_label {U : Set Temp} (r : Routine) (fr : Frame) (l : Label) :
    Silent p r U fr (.label l) :=
  fun _ => ⟨fr.goto (fr.pc + 1), rfl, rfl, (Agree.refl U fr).goto fr.pc _⟩

/-- A jump to the next instruction is none. -/
theorem silent_jump {U : Set Temp} {strict : Prop} (h : Orderly N f.temps data S f.body)
    (hp : InOrder p strict (Routine.ofFunction f)) {fr : Frame} {i : Inst} {rest : List Inst}
    {l : Label} (hdrop : f.body.drop fr.pc = i :: rest) (hl : i.target? = some l)
    (hnext : Code.Prune.nextLabel? rest = some l) : Silent p (Routine.ofFunction f) U fr i := by
  obtain ⟨hat, hrest⟩ := getElem?_of_drop hdrop
  have hi : i ∈ f.body := List.mem_of_getElem? hat
  -- there are no comments to come before the label
  obtain ⟨rest', rfl⟩ : ∃ rest', rest = .label l :: rest' := by
    cases rest with
    | nil => cases hnext
    | cons j rest' =>
      have hj : j ∈ f.body := List.mem_of_mem_drop (hrest ▸ List.mem_cons_self ..)
      cases j with
      | comment text => exact (h.fine _ hj).names.elim
      | label l' =>
        cases hnext
        exact ⟨rest', rfl⟩
      | _ => cases hnext
  have hposition : position (Routine.ofFunction f) l = .ok (fr.pc + 1) := by
    have hbody := (List.take_append_drop (fr.pc + 1) f.body).symm
    rw [hrest] at hbody
    have hlt : fr.pc < f.body.length := (List.getElem?_eq_some_iff.mp hat).1
    rw [position_eq h.labels hbody, List.length_take, Nat.min_eq_left hlt]
  intro s
  refine ⟨fr.goto (fr.pc + 1), ?_, rfl, (Agree.refl U fr).goto fr.pc _⟩
  have hvalue (o : Operand) (ho : o ∈ i.operands) :
      ∃ v, value p (fr.goto (fr.pc + 1)) o = .ok v :=
    value_eq_ok (fun l hl => hp.data i (List.mem_toArray.mpr hi) l (hl ▸ ho)) _
  cases i with
  | jump target =>
    cases hl
    simp only [next, step, jump, hposition]
    rfl
  | branchIf cond target =>
    cases hl
    obtain ⟨v, hv⟩ := hvalue cond (List.mem_singleton.mpr rfl)
    simp only [next, step, branch, jump, hv, hposition]
    split <;> rfl
  | branchUnless cond target =>
    cases hl
    obtain ⟨v, hv⟩ := hvalue cond (List.mem_singleton.mpr rfl)
    simp only [next, step, branch, jump, hv, hposition]
    split <;> rfl
  | _ => cases hl

/-- A routine is simulated by a rewriting that keeps the allocations. -/
theorem simulates_rewrites {strict : Prop} (h : Orderly N f.temps data S f.body)
    (hp : InOrder p strict (Routine.ofFunction f)) (hr : Rewrites f.body body')
    (hfinal : ∀ dst size align, .alloca dst size align ∈ final → .alloca dst size align ∈ body') :
    Simulates p (Keeps final) (Routine.ofFunction f)
      (Routine.ofFunction { f with body := body' }) := by
  obtain ⟨S', h'⟩ := h.rewrites hr
  cases hr with
  | fold => exact ⟨_, simulation_fold h h'.labels⟩
  | unreachable =>
    obtain ⟨R, hthins⟩ := Code.thins_unreachable f.body
    exact ⟨_, simulation_of_thins hthins h.labels h'.labels h.targets subset_rfl
      fun _ hskip => hskip.elim⟩
  | unusedLabels =>
    obtain ⟨R, hthins⟩ := Code.thins_unusedLabels f.body
    refine ⟨_, simulation_of_thins hthins h.labels h'.labels h.targets subset_rfl ?_⟩
    rintro fr i rest - ⟨l, rfl⟩ - -
    exact silent_label _ fr l
  | jumpsToNext =>
    obtain ⟨R, hthins⟩ := Code.thins_jumpsToNext f.body
    refine ⟨_, simulation_of_thins hthins h.labels h'.labels h.targets subset_rfl ?_⟩
    rintro fr i rest hdrop ⟨l, hl, hnext⟩ - -
    exact silent_jump h hp hdrop hl hnext
  | unusedOnce =>
    obtain ⟨R, hthins⟩ := Code.thins_unusedOnce f.body
    refine ⟨_, simulation_of_thins hthins h.labels h'.labels h.targets subset_rfl ?_⟩
    rintro fr i rest hdrop ⟨hpure, hgone, t, hdst, ht⟩ hkeeps hargs
    have hi : i ∈ f.body := List.mem_of_getElem? (getElem?_of_drop hdrop).1
    refine silent_of_pure hp (List.mem_toArray.mpr hi) hdst ht hpure ?_ hargs
    rintro size align rfl
    exact hgone (hfinal t size align (hkeeps t size align rfl))

/-- A routine is simulated by whatever it is rewritten to. -/
theorem simulates_rewritten (h : Orderly N f.temps data S f.body)
    (hglobals : ∀ name, N.globals name → p.symbols[name]?.isSome)
    (hdata : ∀ l ∈ data, p.symbols[l]?.isSome) (harity : N.arity = f.params.length)
    (hr : ReflTransGen Rewrites f.body final) :
    Simulates p (Keeps final) (Routine.ofFunction f)
      (Routine.ofFunction { f with body := final }) := by
  suffices hall : ∀ body S, ReflTransGen Rewrites body final → Orderly N f.temps data S body →
      Simulates p (Keeps final) (Routine.ofFunction { f with body })
        (Routine.ofFunction { f with body := final }) from
    hall f.body S hr h
  intro body S hr
  induction hr using ReflTransGen.head_induction_on generalizing S with
  | refl =>
    intro h
    exact ⟨_, simulation_of_thins (f := { f with body := final }) (thins_refl final) h.labels
      h.labels h.targets subset_rfl fun _ hskip => hskip.elim⟩
  | @head body body' hstep hrest ih =>
    intro h
    obtain ⟨S', h'⟩ := h.rewrites hstep
    have hp : InOrder p False (Routine.ofFunction { f with body }) :=
      InOrder.of_orderly h hglobals hdata harity fun hstrict => hstrict.elim
    have hsimulates := simulates_rewrites h hp hstep fun _ _ _ hmem =>
      Code.alloca_mem_of_rewritten hrest hmem
    exact hsimulates.trans (ih S' h')

end Rewriting

/-! Programs. -/

section Programs

variable {limits : Limits} {symbols : Std.HashMap String Int64} {functions : List Function}
  {optimize : Function → Function} {N : Names} {data : List Label}

/-- An instruction is in the routine of that name, if it is an allocation. -/
def Program.Keeps (p : Program) (name : String) (i : Inst) : Prop :=
  ∀ r, p.routines[name]? = some r → Machine.Keeps r.body.toList i

theorem ofFunction_eq_of_leaves {f g : Function} (h : Code.Pass.Leaves f g) :
    Routine.ofFunction g = Routine.ofFunction { f with body := g.body } := by
  simp only [Routine.ofFunction, h.name, h.params, h.temps]

theorem getElem?_routinesOf_map (h : ∀ f, Code.Pass.Leaves f (optimize f)) (name : String) :
    (routinesOf (functions.map optimize))[name]? =
      (functions.reverse.find? (·.name == name)).map (Routine.ofFunction ∘ optimize) := by
  have hname : (fun f : Function => (optimize f).name == name) = (·.name == name) := by
    funext f
    rw [(h f).name]
  rw [getElem?_routinesOf, ← List.map_reverse, List.find?_map, Option.map_map]
  exact congrArg (fun q => (functions.reverse.find? q).map _) hname

/-- All functions may be optimized at once. -/
theorem refines_optimize (h : ∀ f, Code.Pass.Leaves f (optimize f))
    (horderly : ∀ f ∈ functions, ∃ S,
      Orderly { N with arity := f.params.length } f.temps data S f.body)
    (hglobals : ∀ name, N.globals name → symbols[name]?.isSome)
    (hdata : ∀ l ∈ data, symbols[l]?.isSome) :
    Refines ⟨limits, routinesOf functions, symbols⟩
      ⟨limits, routinesOf (functions.map optimize), symbols⟩
      (Program.Keeps ⟨limits, routinesOf (functions.map optimize), symbols⟩) where
  limits := rfl
  symbols := rfl
  missing name hnone := by
    simp only [getElem?_routinesOf, Option.map_eq_none_iff] at hnone
    simp only [getElem?_routinesOf_map h, hnone, Option.map_none]
  simulates name r hr := by
    simp only [getElem?_routinesOf] at hr
    obtain ⟨f, hfind, rfl⟩ := Option.map_eq_some_iff.mp hr
    have hname : f.name = name := by simpa using List.find?_some hfind
    have hmem : f ∈ functions := List.mem_reverse.mp (List.mem_of_find?_eq_some hfind)
    have hget : (routinesOf (functions.map optimize))[name]? =
        some (Routine.ofFunction (optimize f)) := by
      rw [getElem?_routinesOf_map h, hfind]
      rfl
    refine ⟨_, hget, ?_⟩
    obtain ⟨S, hf⟩ := horderly f hmem
    have hkeeps : Program.Keeps ⟨limits, routinesOf (functions.map optimize), symbols⟩ f.name =
        Keeps (optimize f).body := by
      funext i
      rw [hname]
      refine propext ⟨fun hi => hi _ hget, fun hi r hr => ?_⟩
      obtain rfl := Option.some.inj (hget.symm.trans hr)
      exact hi
    rw [ofFunction_eq_of_leaves (h f)]
    show Simulates _ (Program.Keeps _ f.name) _ _
    rw [hkeeps]
    exact simulates_rewritten hf hglobals hdata rfl (h f).rewrites

end Programs
end MiniC.Machine

namespace MiniC

open Code (Function Module Pass)
open Machine (Reply load replies)

theorem Code.Module.optimize_zero (m : Module) : m.optimize 0 = m := by
  have hrounds (f : Function) : Pass.rounds [] Pass.maxRounds f = f := rfl
  have hmap : m.functions.map (Pass.rounds [] Pass.maxRounds) = m.functions :=
    List.map_id'' hrounds _
  cases m
  simp only [Module.optimize, Module.mapFunctions, Pass.ofLevel, if_true] at hmap ⊢
  rw [hmap]

/-- The level decides nothing before the code is optimized. -/
theorem Compilation.ofSource_level {layout : Layout.Config} {source file : String} {c : Compilation}
    (h : ofSource ⟨layout, 0⟩ source file = .ok c) (level : Nat) :
    ofSource ⟨layout, level⟩ source file = .ok ⟨c.code.optimize level, c.registry⟩ := by
  unfold ofSource at h ⊢
  obtain ⟨language, hlanguage, h₁⟩ := Machine.except_bind_eq_ok.mp h
  obtain ⟨u, hparse, h₂⟩ := Machine.except_bind_eq_ok.mp h₁
  obtain ⟨⟨tree, registry⟩, hcheck, h₃⟩ := Machine.except_bind_eq_ok.mp h₂
  obtain ⟨m, hlower, h₄⟩ := Machine.except_bind_eq_ok.mp h₃
  cases h₄
  refine Machine.except_bind_eq_ok.mpr ⟨language, hlanguage, ?_⟩
  refine Machine.except_bind_eq_ok.mpr ⟨u, hparse, ?_⟩
  refine Machine.except_bind_eq_ok.mpr ⟨_, hcheck, ?_⟩
  refine Machine.except_bind_eq_ok.mpr ⟨m, hlower, ?_⟩
  rw [Code.Module.optimize_zero]
  rfl

/-- If no call exceeds the limit on steps, and no allocation is executed that optimization removed,
then every call has the same value or fault, leaves the same memory and stack, and takes no more
steps. -/
theorem Compilation.optimize_preserves {layout : Layout.Config} {source file : String}
    {plain : Compilation} {limits : Machine.Limits} {l : Machine.Loaded}
    (h : ofSource ⟨layout, 0⟩ source file = .ok plain) (hload : load plain.code limits = .ok l)
    (level : Nat) :
    ∃ optimized l', ofSource ⟨layout, level⟩ source file = .ok optimized ∧
      load optimized.code limits = .ok l' ∧
      ∀ requests,
        (∀ x ∈ replies l.program l.state requests,
          x.result ≠ .error (.stepLimitExceeded limits.steps) ∧
            ∀ y ∈ x.executed, l'.program.Keeps y.1 y.2) →
        List.Forall₂ Reply.Improves (replies l.program l.state requests)
          (replies l'.program l'.state requests) := by
  obtain ⟨made⟩ := made_of_ofSource h
  obtain ⟨placements, memory, stack, hloads⟩ := Machine.loads_of_load hload
  obtain rfl := Except.ok.inj ((hloads.load_eq plain.code.functions).symm.trans hload)
  refine ⟨_, _, ofSource_level h level, hloads.load_eq _, fun requests hrequests => ?_⟩
  have hsymbol {name : String}
      (hname : name ∈ plain.code.globals.map (·.name) ++ plain.code.data.map (·.label)) :
      (Machine.symbolsOf placements)[name]?.isSome :=
    Machine.isSome_symbolsOf (hloads.names ▸ hname)
  have hrefines : Machine.Refines ⟨limits, _, _⟩ _ _ := Machine.refines_optimize
    (N := Typing.namesOf made.tree)
    (fun f => Code.Pass.leaves_rounds (Pass.ofLevel level) Pass.maxRounds f)
    (fun f hf => (made.orderly hf).1)
    (fun name hname => hsymbol (List.mem_append_left _ (made.globals_eq ▸ hname)))
    fun l hl => hsymbol (List.mem_append_right _ hl)
  exact hrefines.replies (Machine.Same.refl _) (Nat.le_refl _) (Nat.zero_le _)
    (fun x hx => (hrequests x hx).1) fun x hx => (hrequests x hx).2

/-- A division by a constant zero, with what comes after it, still traps when it is optimized. -/
theorem Compilation.division_optimize_preserves :
    ∃ plain l optimized l',
      ofSource ⟨⟨.lp64, 64⟩, 0⟩ "int f(void) { return 7 / 0; }" "f.c" = .ok plain ∧
      load plain.code ⟨64, 4, 100⟩ = .ok l ∧
      ofSource ⟨⟨.lp64, 64⟩, 1⟩ "int f(void) { return 7 / 0; }" "f.c" = .ok optimized ∧
      load optimized.code ⟨64, 4, 100⟩ = .ok l' ∧
      (replies l.program l.state [("f", [])]).map (·.result) = [.error .divisionByZero] ∧
      List.Forall₂ Reply.Improves (replies l.program l.state [("f", [])])
        (replies l'.program l'.state [("f", [])]) := by
  let f : Function := ⟨"f", [], ⟨5⟩, [.binary 0 .div (.const 7) (.const 0),
    .cast 1 (.temp 0) ⟨4, true⟩, .cast 2 (.temp 1) ⟨4, true⟩, .ret (some (.temp 2)),
    .ret (some (.const 0))], 3⟩
  have hrun : ((ofSource ⟨⟨.lp64, 64⟩, 0⟩ "int f(void) { return 7 / 0; }" "f.c").toOption.bind
      fun c => (load c.code ⟨64, 4, 100⟩).toOption.bind fun l => some c.code.functions) =
        some [f] := by
    decide +kernel
  obtain ⟨plain, hplain, hl⟩ := Option.bind_eq_some_iff.mp hrun
  obtain ⟨l, hl, hfunctions⟩ := Option.bind_eq_some_iff.mp hl
  replace hplain := ok_of_toOption hplain
  replace hl := ok_of_toOption hl
  obtain ⟨optimized, l', hoptimized, hl', hpreserves⟩ := optimize_preserves hplain hl 1
  have hreply : replies l.program l.state [("f", [])] =
      [⟨.error .divisionByZero, l.state.memory, l.state.stack, 1,
        [("f", .binary 0 .div (.const 7) (.const 0))]⟩] := by
    obtain ⟨placements, memory, stack, hloads⟩ := Machine.loads_of_load hl
    obtain rfl := Except.ok.inj ((hloads.load_eq plain.code.functions).symm.trans hl)
    rw [Option.some.inj hfunctions]
    have hf : (Machine.routinesOf [f])["f"]? = some (Machine.Routine.ofFunction f) := by
      rw [Machine.getElem?_routinesOf]
      rfl
    have hdispatch : Machine.dispatch ⟨⟨64, 4, 100⟩, Machine.routinesOf [f],
        Machine.symbolsOf placements⟩ ⟨memory, stack, 0, 0⟩ "f" [] =
          .enter (Machine.Routine.ofFunction f) := by
      simp only [Machine.dispatch, Machine.callee, hf]
      rfl
    simp only [replies, Machine.reply, Machine.call_eq, Machine.executedIn, hdispatch]
    rfl
  refine ⟨plain, l, optimized, l', hplain, hl, hoptimized, hl', by rw [hreply]; rfl,
    hpreserves _ fun x hx => ?_⟩
  rw [hreply] at hx
  obtain rfl := List.mem_singleton.mp hx
  refine ⟨by simp, fun y hy => ?_⟩
  obtain rfl := List.mem_singleton.mp hy
  intro r hr dst size align halloca
  cases halloca

end MiniC
