import Mathlib.Data.List.Forall2
import MiniC.Proofs.Machine.Ending
/-!
Programs that behave like another one in fewer steps. Routines are compared frame by frame: an
instruction of the old routine is passed over in silence, or the new routine has one that does the
same. Main statement: if every routine is so simulated, then a machine with the new program answers
every sequence of calls as one with the old program does, unless that one runs out of steps.
-/
namespace MiniC.Machine

open Code (Inst Label Operand Temp)

/-- States that differ in their steps only. -/
structure Same (s s' : State) : Prop where
  memory : s'.memory = s.memory
  stack : s'.stack = s.stack
  depth : s'.depth = s.depth

theorem Same.refl (s : State) : Same s s := ⟨rfl, rfl, rfl⟩

theorem Same.symm {s t : State} (h : Same s t) : Same t s :=
  ⟨h.memory.symm, h.stack.symm, h.depth.symm⟩

theorem Same.trans {s t u : State} (hst : Same s t) (htu : Same t u) : Same s u where
  memory := htu.memory.trans hst.memory
  stack := htu.stack.trans hst.stack
  depth := htu.depth.trans hst.depth

theorem same_tick (s : State) : Same s (tick s) := ⟨rfl, rfl, rfl⟩

theorem Same.tick {s s' : State} (h : Same s s') : Same (tick s) (tick s') :=
  ((same_tick s).symm.trans h).trans (same_tick s')

theorem Same.deeper {s s' : State} (h : Same s s') : Same (deeper s) (deeper s') :=
  ⟨h.memory, h.stack, congrArg (· + 1) h.depth⟩

theorem Same.leave {s s' t t' : State} (h : Same s s') (ht : Same t t') :
    Same (leave s.stack s.depth t) (leave s'.stack s'.depth t') :=
  ⟨ht.memory, h.stack, h.depth⟩

/-- Two machines go on alike, in frames that `K` relates. -/
inductive Matches (K : Frame → Frame → Prop) : Next → Next → Prop
  | go {f f' s s'} : K f f' → Same s s' → Matches K (.go f s) (.go f' s')
  | call {dst name args f f' s s'} : (∀ v, K (resume f dst v) (resume f' dst v)) → Same s s' →
      Matches K (.call dst name args f s) (.call dst name args f' s')
  | done {result s s'} : Same s s' → Matches K (.done result s) (.done result s')

theorem Matches.mono {K K' : Frame → Frame → Prop} {n n' : Next} (h : Matches K n n')
    (hK : ∀ f f', K f f' → K' f f') : Matches K' n n' := by
  cases h with
  | go hframes hsame => exact .go (hK _ _ hframes) hsame
  | call hframes hsame => exact .call (fun v => hK _ _ (hframes v)) hsame
  | done hsame => exact .done hsame

theorem Matches.trans {K K' : Frame → Frame → Prop} {n n' n'' : Next} (h : Matches K n n')
    (h' : Matches K' n' n'') : Matches (fun f f'' => ∃ f', K f f' ∧ K' f' f'') n n'' := by
  cases h with
  | go hframes hsame =>
    cases h' with
    | go hframes' hsame' => exact .go ⟨_, hframes, hframes'⟩ (hsame.trans hsame')
  | call hframes hsame =>
    cases h' with
    | call hframes' hsame' =>
      exact .call (fun v => ⟨_, hframes v, hframes' v⟩) (hsame.trans hsame')
  | done hsame =>
    cases h' with
    | done hsame' => exact .done (hsame.trans hsame')

/-! Routines. -/

/-- How the allowed instructions of a routine are done by another one. -/
structure Simulation (p : Program) (allowed : Inst → Prop) (r r' : Routine)
    (K : Frame → Frame → Prop) : Prop where
  arity : r'.arity = r.arity
  enter : ∀ args, args.length = r.arity → K (Frame.enter r args) (Frame.enter r' args)
  stop : ∀ {f f'}, K f f' → r.body[f.pc]? = none → r'.body[f'.pc]? = none
  step : ∀ {f f' i s s'}, K f f' → r.body[f.pc]? = some i → allowed i → Same s s' →
    (∃ g t, next p r f s i = .go g t ∧ K g f' ∧ Same s t) ∨
      ∃ i', r'.body[f'.pc]? = some i' ∧ allowed i' ∧
        Matches K (next p r f s i) (next p r' f' s' i')

def Simulates (p : Program) (allowed : Inst → Prop) (r r' : Routine) : Prop :=
  ∃ K, Simulation p allowed r r' K

section Routines

variable {p : Program} {allowed : Inst → Prop} {r r' r'' : Routine}

theorem Simulation.trans {K K' : Frame → Frame → Prop} (h : Simulation p allowed r r' K)
    (h' : Simulation p allowed r' r'' K') :
    Simulation p allowed r r'' fun f f'' => ∃ f', K f f' ∧ K' f' f'' where
  arity := h'.arity.trans h.arity
  enter args hargs := ⟨_, h.enter args hargs, h'.enter args (hargs.trans h.arity.symm)⟩
  stop := fun ⟨_, hk, hk'⟩ hat => h'.stop hk' (h.stop hk hat)
  step := by
    rintro f f'' i s s'' ⟨f', hk, hk'⟩ hat hallowed hsame
    rcases h.step hk hat hallowed (Same.refl s) with
      ⟨g, t, hnext, hg, ht⟩ | ⟨i', hat', hallowed', hmatches⟩
    · exact .inl ⟨g, t, hnext, ⟨f', hg, hk'⟩, ht⟩
    rcases h'.step hk' hat' hallowed' hsame with
      ⟨g', t', hnext', hg', ht'⟩ | ⟨i'', hat'', hallowed'', hmatches'⟩
    · -- the routine in the middle takes a step that the last one passes over
      rw [hnext'] at hmatches
      generalize hnext : next p r f s i = n at hmatches
      cases hmatches with
      | go hframes hst => exact .inl ⟨_, _, rfl, ⟨g', hframes, hg'⟩, ht'.trans hst.symm⟩
    · exact .inr ⟨i'', hat'', hallowed'', hmatches.trans hmatches'⟩

theorem Simulates.trans (h : Simulates p allowed r r') (h' : Simulates p allowed r' r'') :
    Simulates p allowed r r'' := by
  obtain ⟨K, hK⟩ := h
  obtain ⟨K', hK'⟩ := h'
  exact ⟨_, hK.trans hK'⟩

end Routines

/-! Programs. -/

/-- Every routine of the one program is simulated by the other's routine of the same name. -/
structure Refines (p q : Program) (allowed : String → Inst → Prop) : Prop where
  limits : q.limits = p.limits
  symbols : q.symbols = p.symbols
  missing : ∀ name : String, p.routines[name]? = none → q.routines[name]? = none
  simulates : ∀ (name : String) (r : Routine), p.routines[name]? = some r →
    ∃ r', q.routines[name]? = some r' ∧ Simulates p (allowed r.name) r r'

section Programs

variable {p q : Program} {allowed : String → Inst → Prop} {r r' : Routine} {f f' : Frame}
  {s s' t : State} {name : String} {args : List Int64}

theorem value_congr (h : q.symbols = p.symbols) (f : Frame) (o : Operand) :
    value q f o = value p f o := by
  cases o with
  | data l => simp only [value, h]
  | _ => rfl

theorem values_congr (h : q.symbols = p.symbols) (f : Frame) (os : List Operand) :
    values q f os = values p f os := by
  induction os with
  | nil => rfl
  | cons o os ih => simp only [values, value_congr h, ih]

/-- Of a program, an instruction sees the symbols only. -/
theorem next_congr (h : q.symbols = p.symbols) (r : Routine) (f : Frame) (s : State) (i : Inst) :
    next q r f s i = next p r f s i := by
  cases i with
  | ret result => cases result <;> simp only [next, step, value_congr h]
  | _ => simp only [next, step, storeTo, branch, value_congr h, values_congr h, h]

/-- A call is answered alike, or enters routines that are alike. -/
theorem Refines.dispatch (h : Refines p q allowed) (hsame : Same s s') (name : String)
    (args : List Int64) :
    (∃ result, dispatch p s name args = .answer result ∧ dispatch q s' name args = .answer result) ∨
      ∃ r r', dispatch p s name args = .enter r ∧ dispatch q s' name args = .enter r' ∧
        Simulates p (allowed r.name) r r' ∧ args.length = r.arity := by
  unfold Machine.dispatch
  by_cases hname : name = assertName
  · simp only [hname, if_true]
    exact .inl ⟨_, rfl, rfl⟩
  simp only [hname, if_false, callee]
  cases hr : p.routines[name]? with
  | none =>
    rw [h.missing name hr]
    exact .inl ⟨_, rfl, rfl⟩
  | some r =>
    obtain ⟨r', hr', hsimulates⟩ := h.simulates name r hr
    obtain ⟨K, hK⟩ := hsimulates
    simp only [hr', hK.arity, hsame.depth, h.limits]
    by_cases hlength : args.length = r.arity
    · by_cases hdepth : s.depth < p.limits.callDepth
      · simp only [hlength, hdepth, if_true]
        exact .inr ⟨r, r', rfl, rfl, ⟨K, hK⟩, rfl⟩
      · simp only [hlength, hdepth, if_true, if_false]
        exact .inl ⟨_, rfl, rfl⟩
    · simp only [hlength, if_false]
      exact .inl ⟨_, rfl, rfl⟩

/-- Before a call two routines do the same. -/
theorem Simulation.call (h : q.symbols = p.symbols) {allowed : Inst → Prop}
    {K : Frame → Frame → Prop} (hK : Simulation p allowed r r' K) {i : Inst} {dst : Option Temp}
    {g : Frame} {u : State} (hframes : K f f') (hat : r.body[f.pc]? = some i) (hi : allowed i)
    (hsame : Same s s') (hn : next p r f s i = .call dst name args g u) :
    ∃ i' g' u', r'.body[f'.pc]? = some i' ∧ next q r' f' s' i' = .call dst name args g' u' ∧
      (∀ v, K (resume g dst v) (resume g' dst v)) ∧ Same u u' ∧
      u'.steps + s.steps = u.steps + s'.steps := by
  rcases hK.step hframes hat hi hsame with ⟨g', u', hgo, -⟩ | ⟨i', hat', -, hmatches⟩
  · cases hn.symm.trans hgo
  rw [hn] at hmatches
  generalize hn' : next p r' f' s' i' = n' at hmatches
  cases hmatches with
  | call hresume hu =>
    have hsteps := steps_of_next hn
    have hsteps' := steps_of_next hn'
    simp only [Next.state] at hsteps hsteps'
    exact ⟨i', _, _, hat', (next_congr h r' f' s' i').trans hn', hresume, hu, by omega⟩

/-- The run lemma: a run of the old program that ends is one of the new program with no more
steps. -/
theorem Refines.finishes (h : Refines p q allowed) {result : Except Fault Int64}
    (hrun : Finishes p allowed r f s result t) {K : Frame → Frame → Prop}
    (hK : Simulation p (allowed r.name) r r' K) (hframes : K f f') (hsame : Same s s') :
    ∃ t', Finishes q anything r' f' s' result t' ∧ Same t t' ∧
      t'.steps + s.steps ≤ t.steps + s'.steps := by
  have hstep {r : Routine} {f : Frame} {s : State} {i : Inst} {n : Next}
      (hn : next p r f s i = n) : next q r f s i = n := (next_congr h.symbols r f s i).trans hn
  induction hrun generalizing r' f' s' K with
  | stop hat => exact ⟨s', .stop (hK.stop hframes hat), hsame, by omega⟩
  | @done r f s i result t hat hi hn =>
    rcases hK.step hframes hat hi hsame with ⟨g, u, hgo, -⟩ | ⟨i', hat', -, hmatches⟩
    · cases hn.symm.trans hgo
    rw [hn] at hmatches
    generalize hn' : next p r' f' s' i' = n' at hmatches
    cases hmatches with
    | done ht =>
      have hsteps := steps_of_next hn
      have hsteps' := steps_of_next hn'
      simp only [Next.state] at hsteps hsteps'
      exact ⟨_, .done hat' trivial (hstep hn'), ht, by omega⟩
  | @go r f s i g u result t hat hi hn _ ih =>
    have hsteps := steps_of_next hn
    simp only [Next.state] at hsteps
    rcases hK.step hframes hat hi hsame with ⟨g', u', hgo, hg, hu⟩ | ⟨i', hat', -, hmatches⟩
    · obtain ⟨rfl, rfl⟩ := Next.go.inj (hn.symm.trans hgo)
      obtain ⟨t', hfin, ht, hle⟩ := ih hK hg (hu.symm.trans hsame)
      exact ⟨t', hfin, ht, by omega⟩
    rw [hn] at hmatches
    generalize hn' : next p r' f' s' i' = n' at hmatches
    cases hmatches with
    | go hg hu =>
      have hsteps' := steps_of_next hn'
      simp only [Next.state] at hsteps'
      obtain ⟨t', hfin, ht, hle⟩ := ih hK hg hu
      exact ⟨t', .go hat' trivial (hstep hn') hfin, ht, by omega⟩
  | @failed r f s i dst name args g u e hat hi hn hd =>
    obtain ⟨i', g', u', hat', hn', -, hu, hle⟩ := hK.call h.symbols hframes hat hi hsame hn
    rcases h.dispatch hu name args with ⟨answer, hd₁, hd₂⟩ | ⟨r₁, r₂, hd₁, -⟩
    · obtain rfl := Dispatch.answer.inj (hd₁.symm.trans hd)
      exact ⟨u', .failed hat' trivial hn' hd₂, hu, by omega⟩
    · cases hd₁.symm.trans hd
  | @answered r f s i dst name args g u v result t hat hi hn hd _ ih =>
    obtain ⟨i', g', u', hat', hn', hresume, hu, hle⟩ := hK.call h.symbols hframes hat hi hsame hn
    rcases h.dispatch hu name args with ⟨answer, hd₁, hd₂⟩ | ⟨r₁, r₂, hd₁, -⟩
    · obtain rfl := Dispatch.answer.inj (hd₁.symm.trans hd)
      obtain ⟨t', hfin, ht, hle'⟩ := ih hK (hresume v) hu
      exact ⟨t', .answered hat' trivial hn' hd₂ hfin, ht, by omega⟩
    · cases hd₁.symm.trans hd
  | @calleeFailed r f s i dst name args g u r₁ e t hat hi hn hd _ ih =>
    obtain ⟨i', g', u', hat', hn', -, hu, hle⟩ := hK.call h.symbols hframes hat hi hsame hn
    rcases h.dispatch hu name args with ⟨answer, hd₁, -⟩ | ⟨r₁, r₂, hd₁, hd₂, ⟨K', hK'⟩, hargs⟩
    · cases hd₁.symm.trans hd
    obtain rfl := Dispatch.enter.inj (hd₁.symm.trans hd)
    obtain ⟨t', hfin, ht, hle'⟩ := ih hK' (hK'.enter args hargs) hu.deeper
    refine ⟨_, .calleeFailed hat' trivial hn' hd₂ hfin, hu.leave ht, ?_⟩
    simp only [leave, deeper] at hle' ⊢
    omega
  | @returned r f s i dst name args g u r₁ v t result w hat hi hn hd _ _ ih ih' =>
    obtain ⟨i', g', u', hat', hn', hresume, hu, hle⟩ := hK.call h.symbols hframes hat hi hsame hn
    rcases h.dispatch hu name args with ⟨answer, hd₁, -⟩ | ⟨r₁, r₂, hd₁, hd₂, ⟨K', hK'⟩, hargs⟩
    · cases hd₁.symm.trans hd
    obtain rfl := Dispatch.enter.inj (hd₁.symm.trans hd)
    obtain ⟨t', hfin, ht, hle'⟩ := ih hK' (hK'.enter args hargs) hu.deeper
    obtain ⟨w', hfin', hw, hle''⟩ := ih' hK (hresume v) (hu.leave ht)
    refine ⟨w', .returned hat' trivial hn' hd₂ hfin hfin', hw, ?_⟩
    simp only [leave, deeper] at hle' hle''
    omega

end Programs

/-! Calls from outside. -/

/-- The instructions that a call executes, each with the name of its routine. -/
def executedIn (p : Program) (s : State) (name : String) (args : List Int64) :
    List (String × Inst) :=
  match dispatch p s name args with
  | .answer _ => []
  | .enter r => executed p (p.limits.steps - s.steps + 1) r (Frame.enter r args) (deeper s)

/-- What came of a call: its result, what it left, and the steps that it took. -/
structure Reply where
  result : Except Fault Int64
  memory : Memory
  stack : Nat
  steps : Nat
  executed : List (String × Inst)

def reply (p : Program) (s : State) (name : String) (args : List Int64) : Reply :=
  let (result, t) := call p s name args
  ⟨result, t.memory, t.stack, t.steps - s.steps, executedIn p s name args⟩

/-- The replies to calls that are made one after the other. -/
def replies (p : Program) : State → List (String × List Int64) → List Reply
  | _, [] => []
  | s, (name, args) :: requests => reply p s name args :: replies p (call p s name args).2 requests

/-- The same came of a call, in no more steps. -/
structure Reply.Improves (old new : Reply) : Prop where
  result : new.result = old.result
  memory : new.memory = old.memory
  stack : new.stack = old.stack
  steps : new.steps ≤ old.steps

section Calls

variable {p q : Program} {allowed : String → Inst → Prop} {s s' : State} {name : String}
  {args : List Int64}

/-- A call within the limit has the same result, leaves the same state and stays within the
limit. -/
theorem Refines.call (h : Refines p q allowed) (hsame : Same s s') (hle : s'.steps ≤ s.steps)
    (hlimit : s.steps ≤ p.limits.steps) (hresult : (call p s name args).1 ≠ outOfSteps p)
    (hallowed : ∀ x ∈ executedIn p s name args, allowed x.1 x.2) :
    (call q s' name args).1 = (call p s name args).1 ∧
      Same (call p s name args).2 (call q s' name args).2 ∧
      (call q s' name args).2.steps + s.steps ≤ (call p s name args).2.steps + s'.steps ∧
      s.steps ≤ (call p s name args).2.steps ∧ s'.steps ≤ (call q s' name args).2.steps ∧
      (call p s name args).2.steps ≤ p.limits.steps := by
  rw [call_eq p] at hresult
  rw [call_eq p, call_eq q]
  rw [executedIn] at hallowed
  rcases h.dispatch hsame name args with
    ⟨result, hd, hd'⟩ | ⟨r, r', hd, hd', ⟨K, hK⟩, hargs⟩
  · rw [hd, hd']
    exact ⟨rfl, hsame, by simp only; omega, by simp, by simp, hlimit⟩
  rw [hd] at hresult hallowed
  rw [hd, hd']
  obtain ⟨⟨result, t⟩, hrun⟩ : ∃ x, execute p (p.limits.steps - s.steps + 1) r (Frame.enter r args)
    (deeper s) = x := ⟨_, rfl⟩
  simp only [hrun] at hresult ⊢
  obtain ⟨hfin, hbound⟩ := finishes_of_execute hrun hresult hallowed
  replace hbound := hbound hlimit
  obtain ⟨t', hfin', ht, hle'⟩ := h.finishes hfin hK (hK.enter args hargs) hsame.deeper
  have hsteps := hfin.steps_le
  have hsteps' := hfin'.steps_le
  simp only [deeper] at hle' hsteps hsteps'
  have hrun' := hfin'.execute_eq (by rw [h.limits]; omega) (q.limits.steps - s'.steps + 1)
    (by simp only [deeper]; omega)
  rw [hrun']
  exact ⟨rfl, hsame.leave ht, hle', hsteps, hsteps', hbound⟩

/-- By induction on the calls: after each of them the new machine is where the old one is, and has
taken no more steps. -/
theorem Refines.replies (h : Refines p q allowed) {requests : List (String × List Int64)}
    (hsame : Same s s') (hle : s'.steps ≤ s.steps) (hlimit : s.steps ≤ p.limits.steps)
    (hresults : ∀ x ∈ replies p s requests, x.result ≠ outOfSteps p)
    (hallowed : ∀ x ∈ replies p s requests, ∀ y ∈ x.executed, allowed y.1 y.2) :
    List.Forall₂ Reply.Improves (replies p s requests) (replies q s' requests) := by
  induction requests generalizing s s' with
  | nil => exact .nil
  | cons request requests ih =>
    obtain ⟨name, args⟩ := request
    obtain ⟨hresult, hsame', hle', hsteps, hsteps', hbound⟩ := h.call hsame hle hlimit
      (hresults _ (List.mem_cons_self ..)) (hallowed _ (List.mem_cons_self ..))
    refine .cons ⟨hresult, hsame'.memory, hsame'.stack, ?_⟩ (ih hsame' ?_ hbound ?_ ?_)
    · simp only [reply]
      omega
    · omega
    · exact fun x hx => hresults x (List.mem_cons_of_mem _ hx)
    · exact fun x hx => hallowed x (List.mem_cons_of_mem _ hx)

end Calls
end MiniC.Machine
