import MiniC.Proofs.Machine.Image
import MiniC.Proofs.Simulation.Functions
/-!
Calls of the functions of a unit. Main statement: by induction on the depth of calls that is left, the
machine answers every call as it is evaluated.
-/
namespace MiniC.Simulation

open Code (Function Module labelsOf)
open Evaluation (Action Context Exit Procedure Store)
open Lowering (allocations textLabel)
open Machine (Exceeds Fault Finishes Frame Routine anything deeper dispatch)

/-- A unit, and its code as it is loaded. -/
structure Linked (p : Evaluation.Program) (code : Module) (l : Machine.Program) : Prop where
  lowered : Lowering.lower p.registry p.unit = .ok code
  labels : ∀ g ∈ code.functions, (labelsOf g.body).Nodup
  routines : ∀ name : String, l.routines[name]? =
    (code.functions.reverse.find? (·.name == name)).map Routine.ofFunction
  global : ∀ name, p.global name = l.symbols[name]?
  text : ∀ n, textLabel n ∈ code.data.map (·.label) → l.symbols[textLabel n]? = some (p.text n)
  callDepth : l.limits.callDepth = p.callDepth

/-- What is known of calls in a unit, at some depth. -/
structure Setting.Of (M : Setting) (p : Evaluation.Program) (code : Module) (l : Machine.Program) :
    Prop where
  program : M.program = l
  text : M.text = p.text
  data : M.data = code.data

section Units

variable {p : Evaluation.Program} {code : Module} {l : Machine.Program} {M : Setting}
  {fs : List Function} {qs : List Procedure} {P : Function → Procedure → Prop}

/-- The last function of a name belongs to the last procedure of that name. -/
theorem find_of_forall₂ (h : List.Forall₂ P fs qs) (hname : ∀ g q, P g q → g.name = q.name)
    (name : String) :
    match fs.reverse.find? (·.name == name) with
    | none => qs.reverse.find? (·.name == name) = none
    | some g => g ∈ fs ∧ ∃ q, qs.reverse.find? (·.name == name) = some q ∧ P g q := by
  have hfind {fs : List Function} {qs : List Procedure} (h : List.Forall₂ P fs qs) :
      match fs.find? (·.name == name) with
      | none => qs.find? (·.name == name) = none
      | some g => g ∈ fs ∧ ∃ q, qs.find? (·.name == name) = some q ∧ P g q := by
    induction h with
    | nil => rfl
    | @cons g q fs qs hgq _ ih =>
      rw [List.find?_cons, List.find?_cons, ← hname g q hgq]
      by_cases heq : (g.name == name) = true
      · simp only [heq]
        exact ⟨List.mem_cons_self .., q, rfl, hgq⟩
      · simp only [heq]
        cases hrest : fs.find? (·.name == name) with
        | none =>
          rw [hrest] at ih
          exact ih
        | some g' =>
          rw [hrest] at ih
          exact ⟨List.mem_cons_of_mem _ ih.1, ih.2⟩
  have hreverse := hfind (List.forall₂_reverse_iff.mpr h)
  cases hg : fs.reverse.find? (·.name == name) with
  | none =>
    rw [hg] at hreverse
    exact hreverse
  | some g =>
    rw [hg] at hreverse
    exact ⟨List.mem_reverse.mp hreverse.1, hreverse.2⟩

/-- Functions as they are lowered, with the data that is there in the end. -/
theorem Linked.run (h : Linked p code l) : ∃ gs s,
    Lowering.topDecls p.registry p.unit.decls Lowering.State.initial = .ok ((code.functions, gs), s) ∧
      code.data = s.data.toList := by
  have hlowered := h.lowered
  unfold Lowering.lower at hlowered
  cases hrun : (Lowering.topDecls p.registry p.unit.decls).run Lowering.State.initial with
  | error e =>
    rw [hrun] at hlowered
    cases hlowered
  | ok result =>
    rw [hrun] at hlowered
    obtain ⟨⟨functions, gs⟩, s⟩ := result
    cases hlowered
    exact ⟨gs, s, hrun, rfl⟩

theorem Linked.sound (h : Linked p code l) (hM : M.Of p code l) {g : Function}
    (hg : g ∈ code.functions) (hslots : (allocations g.body).Nodup) :
    { M with routine := Routine.ofFunction g }.Sound where
  labels pc label hat := by
    have hpc : g.body[pc]? = some (.label label) := by
      rw [← hat]
      exact (List.getElem?_toArray ..).symm
    have hlabel : (Routine.ofFunction g).labels[label]? = some pc :=
      Machine.getElem?_labelPositions (h.labels g hg) hpc
    unfold Machine.position
    rw [hlabel]
  slots := hslots
  texts n hn := by
    show M.program.symbols[textLabel n]? = some (M.text n)
    rw [hM.program, hM.text]
    exact h.text n (hM.data ▸ hn)

/-- A call enters what performs the procedure one level deeper. -/
theorem Performs.returns {r : Routine} {q : Procedure} {args : List Int64} {st : Store}
    {m : Machine.State} (h : Performs { M with routine := r, depth := M.depth + 1 } q)
    (hlength : args.length = q.arity) (hmemory : m.memory = st.memory) (hstack : m.stack = st.stack)
    (hdepth : m.depth = M.depth) (hlimit : M.limit ≤ m.steps + M.rounds) :
    Returns M r args m st (Evaluation.activate (q.body args) st) := by
  have hended := h (m := deeper m) hlength hmemory hstack (congrArg (· + 1) hdepth) hlimit
  unfold Evaluation.activate
  generalize q.body args { st with homes := fun _ => none } = x at hended ⊢
  rcases x with ⟨⟨⟩, st'⟩ | ⟨e, st'⟩
  · obtain ⟨t, hfinishes, hmemory⟩ := hended
    exact ⟨t, hfinishes, by rw [hmemory]⟩
  · cases e with
    | fault e => exact hended
    | returned v =>
      obtain ⟨t, hfinishes, hmemory⟩ := hended
      exact ⟨t, hfinishes, by rw [hmemory]⟩
    | unfinished => exact hended
    | broke => exact hended
    | continued => exact hended
    | stuck => exact hended

/-- One level of calls: the machine finds the function whose procedure evaluation finds, and refuses
what evaluation refuses. -/
theorem Linked.answers_level (h : Linked p code l) (hM : M.Of p code l) {enough : Bool}
    (hqs : List.Forall₂ P code.functions qs) (hsigned : ∀ g q, P g q → Signed g q)
    (henough : enough = true ↔ M.depth < p.callDepth)
    (hperforms : enough = true → ∀ g ∈ code.functions, ∀ q, P g q →
      Performs { M with routine := Routine.ofFunction g, depth := M.depth + 1 } q) :
    Answers M (p.answer qs enough) := by
  intro name args st m hmemory hstack hdepth hlimit
  unfold Evaluation.Program.answer dispatch
  by_cases hassert : name = Machine.assertName
  · simp only [hassert, if_true]
  simp only [hassert, if_false]
  have hfind := find_of_forall₂ hqs (fun g q hgq => (hsigned g q hgq).name) name
  unfold Machine.callee
  rw [hM.program, h.routines]
  cases hg : code.functions.reverse.find? (·.name == name) with
  | none =>
    rw [hg] at hfind
    simp only [Option.map_none, hfind]
    rfl
  | some g =>
    rw [hg] at hfind
    obtain ⟨hmem, q, hq, hgq⟩ := hfind
    have hsignature : (Routine.ofFunction g).arity = q.arity := (hsigned g q hgq).arity
    simp only [Option.map_some, hq, hsignature]
    by_cases hlength : args.length = q.arity
    · simp only [hlength, ne_eq, not_true, if_true, if_false]
      rw [hdepth, h.callDepth]
      by_cases hroom : M.depth < p.callDepth
      · simp only [hroom, henough.mpr hroom, if_true]
        exact (hperforms (henough.mpr hroom) g hmem q hgq).returns hlength hmemory hstack hdepth hlimit
      · have hfull : enough = false := Bool.eq_false_iff.mpr fun h => hroom (henough.mp h)
        simp only [hroom, hfull, Bool.false_eq_true, if_false]
        rfl
    · simp only [hlength, ne_eq, not_false_iff, if_true, if_false]
      rfl

/-- Calls are answered as they are evaluated, at every depth. -/
theorem Linked.answers (h : Linked p code l) (room : Nat) (hM : M.Of p code l)
    (hroom : p.callDepth - M.depth = room) : Answers M (p.invoke M.rounds room) := by
  obtain ⟨gs, s, hrun, hdata⟩ := h.run
  induction room generalizing M with
  | zero =>
    refine h.answers_level hM (signed_topDecls _ hrun _) (fun _ _ hgq => hgq) ?_ nofun
    simpa using Nat.le_of_sub_eq_zero hroom
  | succ room ih =>
    have hdeeper := ih (M := { M with depth := M.depth + 1 }) ⟨hM.program, hM.text, hM.data⟩
      (show p.callDepth - (M.depth + 1) = room by omega)
    let c : Context := ⟨p.registry, Registry.void, p.global, p.text, p.invoke M.rounds room,
      M.rounds, false, []⟩
    have hfits : Fits { M with depth := M.depth + 1 } none c :=
      ⟨fun name => (h.global name).trans (by rw [← hM.program]), fun n => by rw [hM.text], hdeeper,
        rfl, rfl⟩
    obtain ⟨-, -, hqs⟩ := runs_topDecls (k := ⟨0, 0⟩) hfits hrun rfl
    refine h.answers_level hM hqs (fun _ _ hgq => hgq.toSigned) ?_ fun _ g hg q hgq => ?_
    · simp only [true_iff]
      omega
    · have hM' : Setting.Of { M with depth := M.depth + 1 } p code l :=
        ⟨hM.program, hM.text, hM.data⟩
      refine hgq.performs (Routine.ofFunction g) rfl rfl (h.sound hM' hg hgq.slots) ?_
      exact (hM.data.trans hdata).symm ▸ List.prefix_rfl

theorem Linked.fits (h : Linked p code l) (hM : M.Of p code l) (returns : TypeId)
    (scopes : Evaluation.Scopes) (targets : Option (Code.Label × Code.Label)) :
    Fits M targets
      (p.context M.rounds (p.callDepth - M.depth) returns scopes targets.isSome) where
  global name := (h.global name).trans (by rw [← hM.program])
  text n := by rw [hM.text]; rfl
  call := h.answers _ hM rfl
  rounds := rfl
  inLoop := rfl

/-- No two allocations of a function have the same temporary. -/
theorem Linked.nodup_allocations (h : Linked p code l) (hM : M.Of p code l) {g : Function}
    (hg : g ∈ code.functions) : (allocations g.body).Nodup := by
  obtain ⟨gs, s, hrun, hdata⟩ := h.run
  obtain ⟨-, -, hqs⟩ := runs_topDecls (k := ⟨0, 0⟩) (h.fits hM Registry.void [] none) hrun rfl
  obtain ⟨i, hi, rfl⟩ := List.mem_iff_getElem.mp hg
  exact ((List.forall₂_iff_get.mp hqs).2 i hi ((List.forall₂_iff_get.mp hqs).1 ▸ hi)).slots

end Units

end MiniC.Simulation
