import MiniC.Machine.Run
/-!
Runs that come to an end, apart from the step limit, and parts of them. `Finishes` says how a frame ends
when no limit on the steps is there, `Exceeds` that more steps than a limit allows are needed. `Reaches`
is a path of single instructions; `Leads` also passes over calls, and is all that a run's end asks of its
beginning. Main statements: a run that finishes within the limit is what `execute` computes, `execute`
computes nothing else unless it reports the limit, and what exceeds the limit is reported.
-/
namespace MiniC.Machine

open Code (Inst Operand Temp)

/-- What answers a call: a result at once, or a routine that has to be run. -/
inductive Dispatch where
  | answer (result : Except Fault Int64)
  | enter (r : Routine)

def dispatch (p : Program) (s : State) (name : String) (args : List Int64) : Dispatch :=
  if name = assertName then .answer (runAssert args)
  else
    match callee p s name args with
    | .error e => .answer (.error e)
    | .ok r => .enter r

def tick (s : State) : State := { s with steps := s.steps + 1 }

/-- The instruction at the frame's position, with the step counted. -/
def next (p : Program) (r : Routine) (f : Frame) (s : State) (i : Inst) : Next :=
  step p r (f.goto (f.pc + 1)) (tick s) i

/-- A run that ends. Every instruction that is executed is `allowed` in the routine of that name. -/
inductive Finishes (p : Program) (allowed : String → Inst → Prop) :
    Routine → Frame → State → Except Fault Int64 → State → Prop where
  | stop {r f s} : r.body[f.pc]? = none → Finishes p allowed r f s (.ok 0) s
  | done {r f s i result t} : r.body[f.pc]? = some i → allowed r.name i →
      next p r f s i = .done result t → Finishes p allowed r f s result t
  | go {r f s i f' s' result t} : r.body[f.pc]? = some i → allowed r.name i →
      next p r f s i = .go f' s' → Finishes p allowed r f' s' result t →
      Finishes p allowed r f s result t
  | failed {r f s i dst name args f' s' e} : r.body[f.pc]? = some i → allowed r.name i →
      next p r f s i = .call dst name args f' s' →
      dispatch p s' name args = .answer (.error e) → Finishes p allowed r f s (.error e) s'
  | answered {r f s i dst name args f' s' v result t} : r.body[f.pc]? = some i →
      allowed r.name i → next p r f s i = .call dst name args f' s' →
      dispatch p s' name args = .answer (.ok v) →
      Finishes p allowed r (resume f' dst v) s' result t → Finishes p allowed r f s result t
  | calleeFailed {r f s i dst name args f' s' r' e t} : r.body[f.pc]? = some i →
      allowed r.name i → next p r f s i = .call dst name args f' s' →
      dispatch p s' name args = .enter r' →
      Finishes p allowed r' (Frame.enter r' args) (deeper s') (.error e) t →
      Finishes p allowed r f s (.error e) (leave s'.stack s'.depth t)
  | returned {r f s i dst name args f' s' r' v t result u} : r.body[f.pc]? = some i →
      allowed r.name i → next p r f s i = .call dst name args f' s' →
      dispatch p s' name args = .enter r' →
      Finishes p allowed r' (Frame.enter r' args) (deeper s') (.ok v) t →
      Finishes p allowed r (resume f' dst v) (leave s'.stack s'.depth t) result u →
      Finishes p allowed r f s result u

def anything : String → Inst → Prop := fun _ _ => True

/-- A run that needs more steps than `limit` allows. -/
inductive Exceeds (p : Program) (limit : Nat) : Routine → Frame → State → Prop where
  | limit {r f s i} : r.body[f.pc]? = some i → limit ≤ s.steps → Exceeds p limit r f s
  | go {r f s i f' s'} : r.body[f.pc]? = some i → next p r f s i = .go f' s' →
      Exceeds p limit r f' s' → Exceeds p limit r f s
  | answered {r f s i dst name args f' s' v} : r.body[f.pc]? = some i →
      next p r f s i = .call dst name args f' s' →
      dispatch p s' name args = .answer (.ok v) →
      Exceeds p limit r (resume f' dst v) s' → Exceeds p limit r f s
  | callee {r f s i dst name args f' s' r'} : r.body[f.pc]? = some i →
      next p r f s i = .call dst name args f' s' → dispatch p s' name args = .enter r' →
      Exceeds p limit r' (Frame.enter r' args) (deeper s') → Exceeds p limit r f s
  | returned {r f s i dst name args f' s' r' v t} : r.body[f.pc]? = some i →
      next p r f s i = .call dst name args f' s' → dispatch p s' name args = .enter r' →
      Finishes p anything r' (Frame.enter r' args) (deeper s') (.ok v) t →
      Exceeds p limit r (resume f' dst v) (leave s'.stack s'.depth t) → Exceeds p limit r f s

/-! The machine's own recursion, in these terms. -/

def outOfSteps (p : Program) : Except Fault Int64 := .error (.stepLimitExceeded p.limits.steps)

theorem execute_zero (p : Program) (r : Routine) (f : Frame) (s : State) :
    execute p 0 r f s = (outOfSteps p, s) := rfl

theorem execute_succ (p : Program) (fuel : Nat) (r : Routine) (f : Frame) (s : State) :
    execute p (fuel + 1) r f s =
      match r.body[f.pc]? with
      | none => (.ok 0, s)
      | some i =>
        if p.limits.steps ≤ s.steps then (outOfSteps p, tick s)
        else
          match next p r f s i with
          | .done result t => (result, t)
          | .go f' s' => execute p fuel r f' s'
          | .call dst name args f' s' =>
            match dispatch p s' name args with
            | .answer (.error e) => (.error e, s')
            | .answer (.ok v) => execute p fuel r (resume f' dst v) s'
            | .enter r' =>
              match execute p fuel r' (Frame.enter r' args) (deeper s') with
              | (.error e, t) => (.error e, leave s'.stack s'.depth t)
              | (.ok v, t) => execute p fuel r (resume f' dst v) (leave s'.stack s'.depth t) := by
  rw [execute]
  cases r.body[f.pc]? with
  | none => rfl
  | some i =>
    by_cases hlimit : p.limits.steps ≤ s.steps
    · simp only [hlimit, if_true, outOfSteps, tick]
    simp only [hlimit, if_false, next, tick]
    cases step p r (f.goto (f.pc + 1)) { s with steps := s.steps + 1 } i with
    | go f' s' => rfl
    | done result t => rfl
    | call dst name args f' s' =>
      by_cases hname : name = assertName
      · simp only [hname, if_true, dispatch]
        cases runAssert args <;> rfl
      · simp only [hname, if_false, dispatch]
        cases callee p s' name args <;> rfl

/-- The instructions that a run executes, in order, each with the name of its routine. -/
def executed (p : Program) : (fuel : Nat) → Routine → Frame → State → List (String × Inst)
  | 0, _, _, _ => []
  | fuel + 1, r, f, s =>
    match r.body[f.pc]? with
    | none => []
    | some i =>
      if p.limits.steps ≤ s.steps then []
      else
        (r.name, i) ::
          match next p r f s i with
          | .done _ _ => []
          | .go f' s' => executed p fuel r f' s'
          | .call dst name args f' s' =>
            match dispatch p s' name args with
            | .answer (.error _) => []
            | .answer (.ok v) => executed p fuel r (resume f' dst v) s'
            | .enter r' =>
              executed p fuel r' (Frame.enter r' args) (deeper s') ++
                match execute p fuel r' (Frame.enter r' args) (deeper s') with
                | (.error _, _) => []
                | (.ok v, t) =>
                  executed p fuel r (resume f' dst v) (leave s'.stack s'.depth t)

/-! Every instruction is one step, and only calls change the depth. -/

def Next.state : Next → State
  | .go _ s => s
  | .call _ _ _ _ s => s
  | .done _ s => s

theorem state_assign (f : Frame) (s : State) (dst : Temp) (v : Except Fault Int64) :
    (assign f s dst v).state = s := by
  cases v <;> rfl

theorem state_jump (r : Routine) (f : Frame) (s : State) (target : Code.Label) :
    (jump r f s target).state = s := by
  unfold jump
  split <;> rfl

theorem state_branch (p : Program) (r : Routine) (f : Frame) (s : State) (cond : Code.Operand)
    (target : Code.Label) (taken : Int64 → Bool) :
    (branch p r f s cond target taken).state = s := by
  unfold branch
  split
  · rfl
  · split
    · exact state_jump r f s target
    · rfl

theorem state_step (p : Program) (r : Routine) (f : Frame) (s : State) (i : Inst) :
    (step p r f s i).state.steps = s.steps ∧ (step p r f s i).state.depth = s.depth := by
  cases i with
  | store base offset src size =>
    simp only [step, storeTo]
    repeat' split
    all_goals exact ⟨rfl, rfl⟩
  | alloca dst size align =>
    simp only [step, allocate]
    repeat' split
    all_goals exact ⟨rfl, rfl⟩
  | call dst name args => simp only [step]; split <;> exact ⟨rfl, rfl⟩
  | ret value => cases value <;> exact ⟨rfl, rfl⟩
  | label name => exact ⟨rfl, rfl⟩
  | comment text => exact ⟨rfl, rfl⟩
  | _ => simp only [step, state_assign, state_jump, state_branch, and_self]

theorem steps_next (p : Program) (r : Routine) (f : Frame) (s : State) (i : Inst) :
    (next p r f s i).state.steps = s.steps + 1 :=
  (state_step p r (f.goto (f.pc + 1)) (tick s) i).1

theorem depth_next (p : Program) (r : Routine) (f : Frame) (s : State) (i : Inst) :
    (next p r f s i).state.depth = s.depth :=
  (state_step p r (f.goto (f.pc + 1)) (tick s) i).2

theorem steps_of_next {p : Program} {r : Routine} {f : Frame} {s : State} {i : Inst} {n : Next}
    (h : next p r f s i = n) : n.state.steps = s.steps + 1 := by
  rw [← h]
  exact steps_next p r f s i

theorem Finishes.steps_le {p allowed r f s result t} (h : Finishes p allowed r f s result t) :
    s.steps ≤ t.steps := by
  induction h with
  | stop => exact Nat.le_refl _
  | done _ _ hn => have := steps_of_next hn; simp only [Next.state] at this; omega
  | go _ _ hn _ ih => have := steps_of_next hn; simp only [Next.state] at this; omega
  | failed _ _ hn _ => have := steps_of_next hn; simp only [Next.state] at this; omega
  | answered _ _ hn _ _ ih => have := steps_of_next hn; simp only [Next.state] at this; omega
  | calleeFailed _ _ hn _ _ ih =>
    have := steps_of_next hn
    simp only [Next.state, deeper, leave] at this ih ⊢
    omega
  | returned _ _ hn _ _ _ ih ih' =>
    have := steps_of_next hn
    simp only [Next.state, deeper, leave] at this ih ih'
    omega

/-! Between the two. -/

section Runs

variable {p : Program} {allowed : String → Inst → Prop} {r r' : Routine} {f f' : Frame}
  {s s' t : State} {i : Inst} {dst : Option Temp} {name : String} {args : List Int64}
  {result : Except Fault Int64} {fuel : Nat}

theorem execute_cases (hat : r.body[f.pc]? = some i) (s : State) (fuel : Nat) :
    (∃ u, execute p fuel r f s = (outOfSteps p, u)) ∨
      ∃ n, fuel = n + 1 ∧ ¬ p.limits.steps ≤ s.steps := by
  cases fuel with
  | zero => exact .inl ⟨s, rfl⟩
  | succ n =>
    by_cases hs : p.limits.steps ≤ s.steps
    · refine .inl ⟨tick s, ?_⟩
      simp only [execute_succ, hat, if_pos hs]
    · exact .inr ⟨n, rfl, hs⟩

theorem execute_done (hat : r.body[f.pc]? = some i) (hs : ¬ p.limits.steps ≤ s.steps)
    (hn : next p r f s i = .done result t) : execute p (fuel + 1) r f s = (result, t) := by
  simp only [execute_succ, hat, hn, if_neg hs]

theorem execute_go (hat : r.body[f.pc]? = some i) (hs : ¬ p.limits.steps ≤ s.steps)
    (hn : next p r f s i = .go f' s') :
    execute p (fuel + 1) r f s = execute p fuel r f' s' := by
  simp only [execute_succ, hat, hn, if_neg hs]

theorem execute_failed {e : Fault} (hat : r.body[f.pc]? = some i)
    (hs : ¬ p.limits.steps ≤ s.steps) (hn : next p r f s i = .call dst name args f' s')
    (hd : dispatch p s' name args = .answer (.error e)) :
    execute p (fuel + 1) r f s = (.error e, s') := by
  simp only [execute_succ, hat, hn, hd, if_neg hs]

theorem execute_answered {v : Int64} (hat : r.body[f.pc]? = some i)
    (hs : ¬ p.limits.steps ≤ s.steps) (hn : next p r f s i = .call dst name args f' s')
    (hd : dispatch p s' name args = .answer (.ok v)) :
    execute p (fuel + 1) r f s = execute p fuel r (resume f' dst v) s' := by
  simp only [execute_succ, hat, hn, hd, if_neg hs]

theorem execute_calleeFailed {e : Fault} (hat : r.body[f.pc]? = some i)
    (hs : ¬ p.limits.steps ≤ s.steps) (hn : next p r f s i = .call dst name args f' s')
    (hd : dispatch p s' name args = .enter r')
    (hc : execute p fuel r' (Frame.enter r' args) (deeper s') = (.error e, t)) :
    execute p (fuel + 1) r f s = (.error e, leave s'.stack s'.depth t) := by
  simp only [execute_succ, hat, hn, hd, hc, if_neg hs]

theorem execute_returned {v : Int64} (hat : r.body[f.pc]? = some i)
    (hs : ¬ p.limits.steps ≤ s.steps) (hn : next p r f s i = .call dst name args f' s')
    (hd : dispatch p s' name args = .enter r')
    (hc : execute p fuel r' (Frame.enter r' args) (deeper s') = (.ok v, t)) :
    execute p (fuel + 1) r f s =
      execute p fuel r (resume f' dst v) (leave s'.stack s'.depth t) := by
  simp only [execute_succ, hat, hn, hd, hc, if_neg hs]

/-- The run either has the result or reports the limit, however much fuel there is. -/
theorem Finishes.execute_or_outOfSteps (h : Finishes p allowed r f s result t) (fuel : Nat) :
    execute p fuel r f s = (result, t) ∨ ∃ u, execute p fuel r f s = (outOfSteps p, u) := by
  induction h generalizing fuel with
  | @stop r f s hat =>
    cases fuel with
    | zero => exact .inr ⟨s, rfl⟩
    | succ fuel => exact .inl (by simp only [execute_succ, hat])
  | @done r f s i result t hat _ hn =>
    rcases execute_cases hat s fuel with hlimit | ⟨n, rfl, hs⟩
    · exact .inr hlimit
    · exact .inl (execute_done hat hs hn)
  | @go r f s i f' s' result t hat _ hn _ ih =>
    rcases execute_cases hat s fuel with hlimit | ⟨n, rfl, hs⟩
    · exact .inr hlimit
    · rw [execute_go hat hs hn]
      exact ih n
  | @failed r f s i dst name args f' s' e hat _ hn hd =>
    rcases execute_cases hat s fuel with hlimit | ⟨n, rfl, hs⟩
    · exact .inr hlimit
    · exact .inl (execute_failed hat hs hn hd)
  | @answered r f s i dst name args f' s' v result t hat _ hn hd _ ih =>
    rcases execute_cases hat s fuel with hlimit | ⟨n, rfl, hs⟩
    · exact .inr hlimit
    · rw [execute_answered hat hs hn hd]
      exact ih n
  | @calleeFailed r f s i dst name args f' s' r' e t hat _ hn hd _ ih =>
    rcases execute_cases hat s fuel with hlimit | ⟨n, rfl, hs⟩
    · exact .inr hlimit
    rcases ih n with hc | ⟨u, hc⟩
    · exact .inl (execute_calleeFailed hat hs hn hd hc)
    · exact .inr ⟨_, execute_calleeFailed hat hs hn hd hc⟩
  | @returned r f s i dst name args f' s' r' v t result u hat _ hn hd _ _ ih ih' =>
    rcases execute_cases hat s fuel with hlimit | ⟨n, rfl, hs⟩
    · exact .inr hlimit
    rcases ih n with hc | ⟨w, hc⟩
    · rw [execute_returned hat hs hn hd hc]
      exact ih' n
    · exact .inr ⟨_, execute_calleeFailed hat hs hn hd hc⟩

/-- A run within the limit is computed, given fuel for the steps that are left. -/
theorem Finishes.execute_eq (h : Finishes p allowed r f s result t)
    (ht : t.steps ≤ p.limits.steps) (fuel : Nat) (hf : p.limits.steps < s.steps + fuel) :
    execute p fuel r f s = (result, t) := by
  induction h generalizing fuel with
  | @stop r f s hat =>
    obtain ⟨n, rfl⟩ : ∃ n, fuel = n + 1 := ⟨fuel - 1, by omega⟩
    simp only [execute_succ, hat]
  | @done r f s i result t hat _ hn =>
    have hsteps : t.steps = s.steps + 1 := steps_of_next hn
    obtain ⟨n, rfl⟩ : ∃ n, fuel = n + 1 := ⟨fuel - 1, by omega⟩
    exact execute_done hat (by omega) hn
  | @go r f s i f' s' result t hat _ hn hrest ih =>
    have hsteps : s'.steps = s.steps + 1 := steps_of_next hn
    have hle := hrest.steps_le
    obtain ⟨n, rfl⟩ : ∃ n, fuel = n + 1 := ⟨fuel - 1, by omega⟩
    rw [execute_go hat (by omega) hn]
    exact ih ht n (by omega)
  | @failed r f s i dst name args f' s' e hat _ hn hd =>
    have hsteps : s'.steps = s.steps + 1 := steps_of_next hn
    obtain ⟨n, rfl⟩ : ∃ n, fuel = n + 1 := ⟨fuel - 1, by omega⟩
    exact execute_failed hat (by omega) hn hd
  | @answered r f s i dst name args f' s' v result t hat _ hn hd hrest ih =>
    have hsteps : s'.steps = s.steps + 1 := steps_of_next hn
    have hle := hrest.steps_le
    obtain ⟨n, rfl⟩ : ∃ n, fuel = n + 1 := ⟨fuel - 1, by omega⟩
    rw [execute_answered hat (by omega) hn hd]
    exact ih ht n (by omega)
  | @calleeFailed r f s i dst name args f' s' r' e t hat _ hn hd hcallee ih =>
    have hsteps : s'.steps = s.steps + 1 := steps_of_next hn
    have hle : s'.steps ≤ t.steps := hcallee.steps_le
    replace ht : t.steps ≤ p.limits.steps := ht
    obtain ⟨n, rfl⟩ : ∃ n, fuel = n + 1 := ⟨fuel - 1, by omega⟩
    have hc := ih ht n (show p.limits.steps < s'.steps + n by omega)
    exact execute_calleeFailed hat (by omega) hn hd hc
  | @returned r f s i dst name args f' s' r' v t result u hat _ hn hd hcallee hrest ih ih' =>
    have hsteps : s'.steps = s.steps + 1 := steps_of_next hn
    have hle : s'.steps ≤ t.steps := hcallee.steps_le
    have hle' : t.steps ≤ u.steps := hrest.steps_le
    obtain ⟨n, rfl⟩ : ∃ n, fuel = n + 1 := ⟨fuel - 1, by omega⟩
    have hc := ih (by omega) n (show p.limits.steps < s'.steps + n by omega)
    rw [execute_returned hat (by omega) hn hd hc]
    exact ih' ht n (show p.limits.steps < t.steps + n by omega)

/-- What is computed without a report of the limit is a run that finishes within it. -/
theorem finishes_of_execute {fuel : Nat} (h : execute p fuel r f s = (result, t))
    (hr : result ≠ outOfSteps p)
    (ha : ∀ x ∈ executed p fuel r f s, allowed x.1 x.2) :
    Finishes p allowed r f s result t ∧ (s.steps ≤ p.limits.steps → t.steps ≤ p.limits.steps) := by
  induction fuel generalizing r f s result t with
  | zero =>
    rw [execute_zero] at h
    exact absurd (Prod.mk.inj h).1.symm hr
  | succ fuel ih =>
    rw [execute_succ] at h
    rw [executed] at ha
    cases hat : r.body[f.pc]? with
    | none =>
      simp only [hat, Prod.mk.injEq] at h
      obtain ⟨rfl, rfl⟩ := h
      exact ⟨.stop hat, id⟩
    | some i =>
      simp only [hat] at h ha
      by_cases hlimit : p.limits.steps ≤ s.steps
      · rw [if_pos hlimit] at h
        exact absurd (Prod.mk.inj h).1.symm hr
      rw [if_neg hlimit] at h ha
      have hi := ha (r.name, i) (List.mem_cons_self ..)
      replace ha := fun x hx => ha x (List.mem_cons_of_mem _ hx)
      cases hn : next p r f s i with
      | done result' t' =>
        have hsteps := steps_of_next hn
        simp only [hn, Prod.mk.injEq] at h
        obtain ⟨rfl, rfl⟩ := h
        simp only [Next.state] at hsteps
        exact ⟨.done hat hi hn, fun _ => by omega⟩
      | go f' s' =>
        have hsteps := steps_of_next hn
        simp only [Next.state] at hsteps
        simp only [hn] at h ha
        obtain ⟨hrest, hbound⟩ := ih h hr ha
        exact ⟨.go hat hi hn hrest, fun _ => hbound (by omega)⟩
      | call dst name args f' s' =>
        have hsteps := steps_of_next hn
        simp only [Next.state] at hsteps
        simp only [hn] at h ha
        cases hd : dispatch p s' name args with
        | answer answer =>
          cases answer with
          | error e =>
            simp only [hd, Prod.mk.injEq] at h
            obtain ⟨rfl, rfl⟩ := h
            exact ⟨.failed hat hi hn hd, fun _ => by omega⟩
          | ok v =>
            simp only [hd] at h ha
            obtain ⟨hrest, hbound⟩ := ih h hr ha
            exact ⟨.answered hat hi hn hd hrest, fun _ => hbound (by omega)⟩
        | enter r' =>
          simp only [hd] at h ha
          obtain ⟨⟨answer, u⟩, hc⟩ : ∃ x, execute p fuel r' (Frame.enter r' args) (deeper s') = x :=
            ⟨_, rfl⟩
          simp only [hc] at h ha
          have hac := fun x hx => ha x (List.mem_append_left _ hx)
          cases answer with
          | error e =>
            simp only [Prod.mk.injEq] at h
            obtain ⟨rfl, rfl⟩ := h
            obtain ⟨hcallee, hbound⟩ := ih hc hr hac
            exact ⟨.calleeFailed hat hi hn hd hcallee, fun _ => hbound (by simp only [deeper]; omega)⟩
          | ok v =>
            obtain ⟨hcallee, hbound⟩ := ih hc (by simp [outOfSteps]) hac
            obtain ⟨hrest, hbound'⟩ := ih h hr fun x hx => ha x (List.mem_append_right _ hx)
            refine ⟨.returned hat hi hn hd hcallee hrest, fun _ => hbound' ?_⟩
            exact hbound (by simp only [deeper]; omega)

/-- What exceeds the limit is reported, however much fuel there is. -/
theorem Exceeds.execute_eq (h : Exceeds p p.limits.steps r f s) (fuel : Nat) :
    ∃ u, execute p fuel r f s = (outOfSteps p, u) := by
  induction h generalizing fuel with
  | @limit r f s i hat hlimit =>
    rcases execute_cases hat s fuel with hout | ⟨n, rfl, hs⟩
    · exact hout
    · exact absurd hlimit hs
  | @go r f s i f' s' hat hn _ ih =>
    rcases execute_cases hat s fuel with hout | ⟨n, rfl, hs⟩
    · exact hout
    · rw [execute_go hat hs hn]
      exact ih n
  | @answered r f s i dst name args f' s' v hat hn hd _ ih =>
    rcases execute_cases hat s fuel with hout | ⟨n, rfl, hs⟩
    · exact hout
    · rw [execute_answered hat hs hn hd]
      exact ih n
  | @callee r f s i dst name args f' s' r' hat hn hd _ ih =>
    rcases execute_cases hat s fuel with hout | ⟨n, rfl, hs⟩
    · exact hout
    · obtain ⟨u, hc⟩ := ih n
      exact ⟨_, execute_calleeFailed hat hs hn hd hc⟩
  | @returned r f s i dst name args f' s' r' v t hat hn hd hcallee _ ih =>
    rcases execute_cases hat s fuel with hout | ⟨n, rfl, hs⟩
    · exact hout
    rcases hcallee.execute_or_outOfSteps n with hc | ⟨u, hc⟩
    · rw [execute_returned hat hs hn hd hc]
      exact ih n
    · exact ⟨_, execute_calleeFailed hat hs hn hd hc⟩

/-! Calls from outside. -/

theorem call_eq (p : Program) (s : State) (name : String) (args : List Int64) :
    call p s name args =
      match dispatch p s name args with
      | .answer result => (result, s)
      | .enter r =>
        let (result, t) :=
          execute p (p.limits.steps - s.steps + 1) r (Frame.enter r args) (deeper s)
        (result, leave s.stack s.depth t) := by
  unfold call dispatch
  by_cases hname : name = assertName
  · simp only [hname, if_true]
  · simp only [hname, if_false]
    cases callee p s name args <;> rfl

end Runs

/-! Parts of a run. -/

/-- Some instructions, none of them a call. -/
inductive Reaches (p : Program) (r : Routine) : Frame → State → Frame → State → Prop where
  | refl (f s) : Reaches p r f s f s
  | go {f s i f' s' g t} : r.body[f.pc]? = some i → next p r f s i = .go f' s' →
      Reaches p r f' s' g t → Reaches p r f s g t

/-- Whatever comes of the later point comes of the earlier one. -/
structure Leads (p : Program) (limit : Nat) (r : Routine) (f : Frame) (s : State) (g : Frame)
    (t : State) : Prop where
  finishes : ∀ {result u}, Finishes p anything r g t result u → Finishes p anything r f s result u
  exceeds : Exceeds p limit r g t → Exceeds p limit r f s
  steps : s.steps ≤ t.steps

section Paths

variable {p : Program} {limit : Nat} {r : Routine} {f g h : Frame} {s t u : State} {i : Inst}

theorem Reaches.trans (hfg : Reaches p r f s g t) (hgh : Reaches p r g t h u) :
    Reaches p r f s h u := by
  induction hfg with
  | refl => exact hgh
  | go hat hn _ ih => exact .go hat hn (ih hgh)

theorem Reaches.single (hat : r.body[f.pc]? = some i) (hn : next p r f s i = .go g t) :
    Reaches p r f s g t :=
  .go hat hn (.refl g t)

/-- No instruction leads on from here within the routine. -/
def Stuck (p : Program) (r : Routine) (f : Frame) (s : State) : Prop :=
  ∀ i g t, r.body[f.pc]? = some i → next p r f s i ≠ .go g t

/-- There is one path to where a run is stuck. -/
theorem Reaches.unique {g' : Frame} {t' : State} (hfg : Reaches p r f s g t)
    (hfg' : Reaches p r f s g' t') (hg : Stuck p r g t) (hg' : Stuck p r g' t') :
    g = g' ∧ t = t' := by
  induction hfg with
  | refl =>
    cases hfg' with
    | refl => exact ⟨rfl, rfl⟩
    | go hat hn _ => exact absurd hn (hg _ _ _ hat)
  | go hat hn _ ih =>
    cases hfg' with
    | refl => exact absurd hn (hg' _ _ _ hat)
    | go hat' hn' hrest =>
      obtain rfl := Option.some.inj (hat.symm.trans hat')
      rw [hn] at hn'
      cases hn'
      exact ih hrest hg

theorem Leads.refl (p : Program) (limit : Nat) (r : Routine) (f : Frame) (s : State) :
    Leads p limit r f s f s :=
  ⟨id, id, Nat.le_refl _⟩

theorem Leads.trans (hfg : Leads p limit r f s g t) (hgh : Leads p limit r g t h u) :
    Leads p limit r f s h u where
  finishes hu := hfg.finishes (hgh.finishes hu)
  exceeds hu := hfg.exceeds (hgh.exceeds hu)
  steps := Nat.le_trans hfg.steps hgh.steps

theorem Leads.single (hat : r.body[f.pc]? = some i) (hn : next p r f s i = .go g t) :
    Leads p limit r f s g t where
  finishes hu := .go hat trivial hn hu
  exceeds hu := .go hat hn hu
  steps := by
    have hsteps : t.steps = s.steps + 1 := steps_of_next hn
    omega

theorem Reaches.leads (hfg : Reaches p r f s g t) : Leads p limit r f s g t := by
  induction hfg with
  | refl f s => exact Leads.refl p limit r f s
  | go hat hn _ ih => exact (Leads.single hat hn).trans ih

end Paths

/-! What an instruction leaves alone. -/

/-- The temporaries below `n` hold what they held. -/
structure Kept (n : Nat) (f g : Frame) : Prop where
  args : g.args = f.args
  size : g.temps.size = f.temps.size
  temps : ∀ t < n, g.temps.getD t 0 = f.temps.getD t 0

theorem Kept.refl (n : Nat) (f : Frame) : Kept n f f := ⟨rfl, rfl, fun _ _ => rfl⟩

theorem Kept.trans {n m : Nat} {f g h : Frame} (hfg : Kept n f g) (hgh : Kept m g h)
    (hnm : n ≤ m) : Kept n f h where
  args := hgh.args.trans hfg.args
  size := hgh.size.trans hfg.size
  temps t ht := (hgh.temps t (Nat.lt_of_lt_of_le ht hnm)).trans (hfg.temps t ht)

theorem Kept.mono {n m : Nat} {f g : Frame} (h : Kept m f g) (hnm : n ≤ m) : Kept n f g :=
  (Kept.refl n f).trans h hnm

theorem kept_goto (n : Nat) (f : Frame) (pc : Nat) : Kept n f (f.goto pc) :=
  ⟨rfl, rfl, fun _ _ => rfl⟩

theorem kept_set {n : Nat} (f : Frame) {t : Temp} (v : Int64) (h : n ≤ t) : Kept n f (f.set t v) where
  args := rfl
  size := by simp [Frame.set]
  temps i hi := by
    simp only [Frame.set, Array.getD_eq_getD_getElem?, Array.getElem?_setIfInBounds]
    rw [if_neg (by omega)]

@[simp] theorem pc_set (f : Frame) (t : Temp) (v : Int64) : (f.set t v).pc = f.pc := rfl

@[simp] theorem slots_set (f : Frame) (t : Temp) (v : Int64) : (f.set t v).slots = f.slots := rfl

theorem getD_set_self (f : Frame) {t : Temp} (v : Int64) (h : t < f.temps.size) :
    (f.set t v).temps.getD t 0 = v := by
  simp [Frame.set, Array.getD_eq_getD_getElem?, h]

end MiniC.Machine

namespace MiniC.Code.Operand

/-- An operand that no temporary from `n` on is part of. -/
def Below (n : Nat) : Operand → Prop
  | temp t => t < n
  | _ => True

theorem Below.mono {n m : Nat} {o : Operand} (h : o.Below n) (hnm : n ≤ m) : o.Below m := by
  cases o with
  | temp t => exact Nat.lt_of_lt_of_le h hnm
  | _ => trivial

end MiniC.Code.Operand

namespace MiniC.Machine

open Code (Operand)

theorem value_kept {p : Program} {n : Nat} {f g : Frame} {o : Operand} (h : Kept n f g)
    (ho : o.Below n) : value p g o = value p f o := by
  cases o with
  | temp t => simp only [value, h.temps t ho]
  | _ => rfl

@[simp] theorem value_goto (p : Program) (f : Frame) (pc : Nat) (o : Operand) :
    value p (f.goto pc) o = value p f o := by
  cases o <;> rfl

end MiniC.Machine
