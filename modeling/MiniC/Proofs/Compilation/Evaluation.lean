import MiniC.Proofs.Compilation.Safety
import MiniC.Proofs.Machine.Ending
import MiniC.Proofs.Machine.Image
import MiniC.Proofs.Simulation.Units
/-!
Lowered code runs as the tree is evaluated. A call from outside settles at the same result under every
limit on the steps, and with enough steps it reaches that result. Main statement: a call of a function of an
accepted source has the result and leaves the memory of the evaluation of the tree, and has a result
whenever the evaluation has one.
-/
namespace MiniC.Machine

open Code (Inst Operand)

namespace Program

/-- The same program under another limit on steps. -/
def withSteps (p : Program) (n : Nat) : Program := { p with limits := { p.limits with steps := n } }

end Program

/-- The call ends with that result and that memory, if it is given the steps. -/
def Settles (p : Program) (s : State) (name : String) (args : List Int64)
    (result : Except Fault Int64) (memory : Memory) : Prop :=
  match dispatch p s name args with
  | .answer x => x = result ∧ s.memory = memory
  | .enter r => ∃ t, Finishes p anything r (Frame.enter r args) (deeper s) result t ∧ t.memory = memory

section Limits

variable {p : Program} {allowed : String → Inst → Prop} {r : Routine} {f : Frame} {s t : State}
  {name : String} {args : List Int64} {result : Except Fault Int64} {memory : Memory}

theorem values_withSteps (p : Program) (n : Nat) (f : Frame) (os : List Operand) :
    values (p.withSteps n) f os = values p f os := by
  induction os with
  | nil => rfl
  | cons o os ih =>
    simp only [values, ih]
    rfl

theorem next_withSteps (p : Program) (n : Nat) (r : Routine) (f : Frame) (s : State) (i : Inst) :
    next (p.withSteps n) r f s i = next p r f s i := by
  cases i with
  | call dst callee args => simp only [next, step, values_withSteps]
  | ret o => cases o <;> rfl
  | _ => rfl

/-- How a run ends has nothing to do with the limit. -/
theorem Finishes.withSteps (h : Finishes p allowed r f s result t) (n : Nat) :
    Finishes (p.withSteps n) allowed r f s result t := by
  induction h with
  | stop hat => exact .stop hat
  | done hat hi hn => exact .done hat hi ((next_withSteps ..).trans hn)
  | go hat hi hn _ ih => exact .go hat hi ((next_withSteps ..).trans hn) ih
  | failed hat hi hn hd => exact .failed hat hi ((next_withSteps ..).trans hn) hd
  | answered hat hi hn hd _ ih => exact .answered hat hi ((next_withSteps ..).trans hn) hd ih
  | calleeFailed hat hi hn hd _ ih => exact .calleeFailed hat hi ((next_withSteps ..).trans hn) hd ih
  | returned hat hi hn hd _ _ ih ih' => exact .returned hat hi ((next_withSteps ..).trans hn) hd ih ih'

theorem placeGlobals_withSteps (limits : Limits) (n cursor : Nat) (gs : List Code.Global) :
    Image.placeGlobals { limits with steps := n } cursor gs = Image.placeGlobals limits cursor gs := by
  induction gs generalizing cursor with
  | nil => rfl
  | cons g gs ih => simp only [Image.placeGlobals, ih]

/-- A module is loaded in the same way under every limit on steps. -/
theorem load_withSteps {m : Code.Module} {limits : Limits} {l : Loaded} (h : load m limits = .ok l)
    (n : Nat) : load m { limits with steps := n } = .ok ⟨l.program.withSteps n, l.state⟩ := by
  unfold load at h ⊢
  obtain ⟨⟨globals, cursor⟩, hglobals, h⟩ := except_bind_eq_ok.mp h
  obtain ⟨stack, hstack, h⟩ := except_bind_eq_ok.mp h
  obtain ⟨memory, hfill, h⟩ := except_bind_eq_ok.mp h
  cases h
  rw [placeGlobals_withSteps]
  exact except_bind_eq_ok.mpr ⟨_, hglobals, except_bind_eq_ok.mpr ⟨_, hstack,
    except_bind_eq_ok.mpr ⟨_, hfill, rfl⟩⟩⟩

/-- With enough steps the result is reached. -/
theorem Settles.call_withSteps (h : Settles p s name args result memory) :
    ∃ enough, ∀ n ≥ enough, ∃ used,
      call (p.withSteps n) s name args = (result, ⟨memory, s.stack, used, s.depth⟩) := by
  have hdispatch (n : Nat) : dispatch (p.withSteps n) s name args = dispatch p s name args := rfl
  unfold Settles at h
  cases hd : dispatch p s name args with
  | answer x =>
    rw [hd] at h
    obtain ⟨rfl, rfl⟩ := h
    refine ⟨0, fun n _ => ⟨s.steps, ?_⟩⟩
    rw [call_eq, hdispatch, hd]
  | enter r =>
    rw [hd] at h
    obtain ⟨t, hfinishes, rfl⟩ := h
    refine ⟨t.steps, fun n hn => ⟨t.steps, ?_⟩⟩
    have hfuel : n < (deeper s).steps + (n - s.steps + 1) := by
      simp only [deeper]
      omega
    have hrun := (hfinishes.withSteps n).execute_eq hn _ hfuel
    rw [call_eq, hdispatch, hd]
    simp only
    rw [show (p.withSteps n).limits.steps - s.steps + 1 = n - s.steps + 1 from rfl, hrun]
    rfl

/-- A call that does not report the limit has come to where it settles. -/
theorem Settles.call_eq_of_ne (h : Settles p s name args result memory)
    (hlimit : (call p s name args).1 ≠ outOfSteps p) :
    (call p s name args).1 = result ∧ (call p s name args).2.memory = memory := by
  unfold Settles at h
  rw [call_eq] at hlimit ⊢
  cases hd : dispatch p s name args with
  | answer x =>
    rw [hd] at h
    exact h
  | enter r =>
    rw [hd] at h hlimit
    obtain ⟨t, hfinishes, rfl⟩ := h
    rcases hfinishes.execute_or_outOfSteps (p.limits.steps - s.steps + 1) with hrun | ⟨u, hrun⟩
    · simp only [hrun]
      exact ⟨trivial, rfl⟩
    · simp only [hrun] at hlimit
      exact absurd rfl hlimit

/-- A call that needs more steps reports the limit. -/
theorem Exceeds.call_eq (hd : dispatch p s name args = .enter r)
    (h : Exceeds p p.limits.steps r (Frame.enter r args) (deeper s)) :
    (call p s name args).1 = outOfSteps p := by
  obtain ⟨u, hrun⟩ := h.execute_eq (p.limits.steps - s.steps + 1)
  rw [Machine.call_eq, hd]
  simp only [hrun]

end Limits

end MiniC.Machine

namespace MiniC

open Lowering (textLabel)
open Machine (Fault Loaded Memory Settles dispatch)
open Simulation (Linked Setting)
open Syntax (CompilationUnit)

/-- An analyzed unit, with globals and texts where its code was loaded with them. -/
def Evaluation.Program.ofLoaded (registry : Registry) (tree : CompilationUnit) (l : Loaded) :
    Evaluation.Program where
  registry := registry
  unit := tree
  global := l.address?
  text n := (l.address? (textLabel n)).getD 0
  callDepth := l.program.limits.callDepth

namespace Simulation

variable {p : Evaluation.Program} {code : Code.Module} {l : Machine.Program} {s : Machine.State}
  {name : String} {args : List Int64} {result : Except Fault Int64} {memory : Memory}

/-- A call settles where its evaluation ends, and exceeds the limit if the evaluation is cut off after
enough rounds. -/
theorem Linked.settles (h : Linked p code l) {limit rounds : Nat} (hlimit : limit ≤ s.steps + rounds)
    (name : String) (args : List Int64) :
    match p.evaluate rounds s name args with
    | some (result, memory) => Settles l s name args result memory
    | none => ∃ r, dispatch l s name args = .enter r ∧
        Machine.Exceeds l limit r (Machine.Frame.enter r args) (Machine.deeper s) := by
  have hcalls := h.answers _
    (M := ⟨l, ⟨"", 0, 0, #[], {}⟩, s.depth, limit, rounds, p.text, code.data⟩) ⟨rfl, rfl, rfl⟩ rfl
    name args
  have hanswers := @hcalls ⟨s.memory, s.stack, fun _ => none⟩ s rfl rfl rfl hlimit
  unfold Evaluation.Program.evaluate Settles
  cases hd : dispatch l s name args with
  | answer x =>
    simp only [hd] at hanswers ⊢
    rw [hanswers]
    cases x with
    | ok v => exact ⟨rfl, rfl⟩
    | error e => exact ⟨rfl, rfl⟩
  | enter r =>
    simp only [hd] at hanswers ⊢
    rcases hresult : p.invoke rounds (p.callDepth - s.depth) name args
      ⟨s.memory, s.stack, fun _ => none⟩ with ⟨v, st⟩ | ⟨e, st⟩
    · rw [hresult] at hanswers
      obtain ⟨t, hfinishes, rfl⟩ := hanswers
      exact ⟨t, hfinishes, rfl⟩
    · rw [hresult] at hanswers
      cases e with
      | fault e => exact hanswers
      | unfinished => exact ⟨r, rfl, hanswers⟩
      | returned v => exact hanswers.elim
      | broke => exact hanswers.elim
      | continued => exact hanswers.elim
      | stuck => exact hanswers.elim

/-- The code of an accepted unit is loaded with the labels, routines and symbols that its evaluation
relies on. -/
theorem linked_of_load {layout : Layout.Config} {u : CompilationUnit} {limits : Machine.Limits}
    {l : Loaded} (herrors : (Typing.analyze layout u).errors = [])
    (hlower : Lowering.lower (Typing.analyze layout u).registry (Typing.analyze layout u).tree = .ok code)
    (hload : Machine.load code limits = .ok l) :
    Linked (.ofLoaded (Typing.analyze layout u).registry (Typing.analyze layout u).tree l) code
      l.program := by
  obtain ⟨-, hfunctions⟩ := Lowering.lower_eq_ok hlower (Typing.scoped_of_analyze herrors).2
  obtain ⟨placements, memory, stack, hloads⟩ := Machine.loads_of_load hload
  obtain rfl := Except.ok.inj ((hloads.load_eq code.functions).symm.trans hload)
  refine ⟨hlower, fun g hg => ?_, fun name => Machine.getElem?_routinesOf _ _, fun name => rfl,
    fun n hn => ?_, rfl⟩
  · obtain ⟨f, -, -, hmade⟩ := hfunctions g hg
    obtain ⟨S, horderly⟩ := hmade.orderly
    exact horderly.labels
  · have hname : textLabel n ∈ placements.map (·.name) :=
      hloads.names ▸ List.mem_append_right _ hn
    obtain ⟨address, haddress⟩ := Option.isSome_iff_exists.mp (Machine.isSome_symbolsOf hname)
    show (Machine.symbolsOf placements)[textLabel n]? =
      some (((Machine.symbolsOf placements)[textLabel n]?).getD 0)
    rw [haddress]
    rfl

end Simulation

/-- Every accepted source has code, and wherever that code is loaded, every call from outside, in
whatever state and with whatever arguments, comes to what the evaluation of the tree comes to. If the
call does not report the step limit, then evaluation has its result and its memory, with as many rounds
for each loop as there are steps. If evaluation has a result, with whatever number of rounds, then the
call has it too and leaves the memory that evaluation leaves, and the stack and the depth as they
were, as soon as it is given enough steps. -/
theorem Compilation.call_eq_evaluate {layout : Layout.Config} {source : String}
    {tree : CompilationUnit} {registry : Registry}
    (h : (do check layout (← parse source)) = .ok (tree, registry)) :
    ∃ code, Lowering.lower registry tree = .ok code ∧
      ∀ limits l, Machine.load code limits = .ok l → ∀ state name args,
        ((Machine.call l.program state name args).1 ≠ .error (.stepLimitExceeded limits.steps) →
          (Evaluation.Program.ofLoaded registry tree l).evaluate limits.steps state name args =
            some ((Machine.call l.program state name args).1,
              (Machine.call l.program state name args).2.memory)) ∧
        ∀ rounds result memory,
          (Evaluation.Program.ofLoaded registry tree l).evaluate rounds state name args =
              some (result, memory) →
            ∃ enough, ∀ steps ≥ enough, ∃ used,
              Machine.call (l.program.withSteps steps) state name args =
                (result, ⟨memory, state.stack, used, state.depth⟩) := by
  obtain ⟨u, -, hcheck⟩ := Machine.except_bind_eq_ok.mp h
  obtain ⟨herrors, rfl, rfl⟩ := accepted_of_check hcheck
  obtain ⟨G, hsound, hunit⟩ := Typing.judged_of_analyze herrors
  obtain ⟨code, hcode⟩ := Lowering.exists_lower hsound.consistent hunit
  refine ⟨code, hcode, fun limits l hload state name args => ?_⟩
  have hlinked := Simulation.linked_of_load herrors hcode hload
  have hlimits : l.program.limits = limits := by
    obtain ⟨placements, memory, stack, hloads⟩ := Machine.loads_of_load hload
    obtain rfl := Except.ok.inj ((hloads.load_eq code.functions).symm.trans hload)
    rfl
  refine ⟨fun hlimit => ?_, fun rounds result memory heval => ?_⟩
  · have hsettles := hlinked.settles (s := state) (Nat.le_add_left limits.steps state.steps) name args
    replace hlimit : (Machine.call l.program state name args).1 ≠ Machine.outOfSteps l.program := by
      unfold Machine.outOfSteps
      rw [hlimits]
      exact hlimit
    split at hsettles
    · rename_i result memory heval
      obtain ⟨hresult, hmemory⟩ := hsettles.call_eq_of_ne hlimit
      rw [heval, hresult, hmemory]
    · obtain ⟨r, hd, hexceeds⟩ := hsettles
      rw [← hlimits] at hexceeds
      exact absurd (hexceeds.call_eq hd) hlimit
  · have hsettles := hlinked.settles (s := state) (Nat.zero_le (state.steps + rounds)) name args
    rw [heval] at hsettles
    exact hsettles.call_withSteps

/-- A loop with a continue and a short circuit, over locals with initializers. -/
theorem Compilation.loop_call_eq_evaluate :
    ∃ tree registry code l, (do check ⟨.lp64, 64⟩ (← parse
        "int f(int n) { int s = 0; for (int i = 0; i < n; i += 1) { if (i == 2) continue; s += i && n; } return s; }")) =
      .ok (tree, registry) ∧ Lowering.lower registry tree = .ok code ∧
      Machine.load code ⟨128, 4, 1000⟩ = .ok l ∧
      ∃ enough, ∀ steps ≥ enough,
        (Machine.call (l.program.withSteps steps) l.state "f" [4]).1 = .ok 2 := by
  have hrun : ((do check ⟨.lp64, 64⟩ (← parse
      "int f(int n) { int s = 0; for (int i = 0; i < n; i += 1) { if (i == 2) continue; s += i && n; } return s; }")
      ).toOption.bind fun x => (Lowering.lower x.2 x.1).toOption.bind fun code =>
        (Machine.load code ⟨128, 4, 1000⟩).toOption.bind fun l =>
          ((Evaluation.Program.ofLoaded x.2 x.1 l).evaluate 5 l.state "f" [4]).bind fun y =>
            y.1.toOption) = some 2 := by decide +kernel
  obtain ⟨⟨tree, registry⟩, hcheck, hrun⟩ := Option.bind_eq_some_iff.mp hrun
  obtain ⟨code, hcode, hrun⟩ := Option.bind_eq_some_iff.mp hrun
  obtain ⟨l, hload, hrun⟩ := Option.bind_eq_some_iff.mp hrun
  obtain ⟨⟨result, memory⟩, heval, hresult⟩ := Option.bind_eq_some_iff.mp hrun
  replace hcheck := ok_of_toOption hcheck
  replace hcode := ok_of_toOption hcode
  replace hload := ok_of_toOption hload
  obtain rfl : result = .ok 2 := ok_of_toOption hresult
  obtain ⟨code', hcode', hcalls⟩ := call_eq_evaluate hcheck
  obtain rfl := Except.ok.inj (hcode.symm.trans hcode')
  obtain ⟨enough, hcall⟩ := (hcalls _ l hload l.state "f" [4]).2 5 _ _ heval
  refine ⟨tree, registry, code, l, hcheck, hcode, hload, enough, fun steps hsteps => ?_⟩
  obtain ⟨used, hcall⟩ := hcall steps hsteps
  rw [hcall]

end MiniC
