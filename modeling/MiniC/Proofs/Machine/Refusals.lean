import MiniC.Proofs.Machine.Safety
import MiniC.Proofs.Machine.Stack
/-!
Where a number of arguments is refused. The machine compares the arguments of a call with what its
routine takes, and no other instruction of code in order can end a run so. Main statements: when a call
is refused for their number, and that a run which ends with such a refusal has come to a call in the
code that is refused.
-/
namespace MiniC.Machine

open Code (Inst)

variable {p : Program} {r : Routine} {f : Frame} {s t : State} {i : Inst} {strict : Prop}
  {name callee : String} {args : List Int64} {expected got : Nat} {result : Except Fault Int64}

/-- The number of arguments that must be given to that name, if it can be called. -/
def Program.takes? (p : Program) (name : String) : Option Nat :=
  if name = assertName then some 2 else p.routines[name]?.map (·.arity)

/-- A call of that name with so many arguments stands in the code. -/
def Program.HasCall (p : Program) (name : String) (count : Nat) : Prop :=
  ∃ (caller : String) (r : Routine) (dst : Option Code.Temp) (args : List Code.Operand),
    p.routines[caller]? = some r ∧ .call dst name args ∈ r.body ∧ args.length = count

theorem takes_of_accepts (h : Accepts p name args.length) (htakes : p.takes? name = some expected) :
    args.length = expected := by
  unfold Program.takes? at htakes
  by_cases hname : name = assertName
  · rw [if_pos hname] at htakes
    cases htakes
    exact h.1 hname
  · rw [if_neg hname] at htakes
    obtain ⟨r, hr, rfl⟩ := Option.map_eq_some_iff.mp htakes
    exact h.2 r hr

theorem runAssert_refuses_iff :
    runAssert args = .error (.argumentCount callee expected got) ↔
      callee = assertName ∧ expected = 2 ∧ got = args.length ∧ got ≠ expected := by
  unfold runAssert
  split
  · rename_i a b
    constructor
    · intro h
      split at h <;> cases h
    · rintro ⟨-, rfl, rfl, hne⟩
      exact absurd rfl hne
  · rename_i hpair
    constructor
    · intro h
      cases h
      refine ⟨rfl, rfl, rfl, fun hlength => ?_⟩
      obtain ⟨a, b, rfl⟩ := List.length_eq_two.mp hlength
      exact hpair a b rfl
    · rintro ⟨rfl, rfl, rfl, -⟩
      rfl

/-- A call is refused for the number of its arguments exactly if its routine takes another number. -/
theorem dispatch_refuses_iff :
    dispatch p s name args = .answer (.error (.argumentCount callee expected got)) ↔
      callee = name ∧ p.takes? name = some expected ∧ got = args.length ∧ got ≠ expected := by
  unfold dispatch Program.takes?
  by_cases hname : name = assertName
  · subst hname
    simp only [if_true, Dispatch.answer.injEq, runAssert_refuses_iff, Option.some.injEq]
    constructor
    · rintro ⟨rfl, rfl, hgot, hne⟩
      exact ⟨rfl, rfl, hgot, hne⟩
    · rintro ⟨rfl, rfl, hgot, hne⟩
      exact ⟨rfl, rfl, hgot, hne⟩
  · simp only [if_neg hname, Machine.callee]
    cases hroutine : p.routines[name]? with
    | none => simp
    | some r =>
      by_cases hlength : args.length = r.arity
      · simp only [if_pos hlength, Option.map_some, Option.some.injEq]
        constructor
        · intro h
          by_cases hdepth : s.depth < p.limits.callDepth
          · rw [if_pos hdepth] at h
            cases h
          · rw [if_neg hdepth] at h
            cases h
        · rintro ⟨-, rfl, rfl, hne⟩
          exact absurd hlength hne
      · simp only [if_neg hlength, Option.map_some, Option.some.injEq]
        constructor
        · intro h
          cases h
          exact ⟨rfl, rfl, rfl, hlength⟩
        · rintro ⟨rfl, rfl, rfl, -⟩
          rfl

/-! One instruction. -/

/-- Only a call calls, with the values of its operands. -/
theorem operands_of_call {dst : Option Code.Temp} {f' : Frame} {s' : State}
    (h : step p r f s i = .call dst name args f' s') :
    ∃ os, i = .call dst name os ∧ values p f os = .ok args := by
  cases i with
  | call dst' name' os =>
    simp only [step] at h
    split at h
    · cases h
    · rename_i vs hvs
      cases h
      exact ⟨os, rfl, hvs⟩
  | ret value => cases value <;> cases h
  | _ =>
    simp only [step, assign, jump, branch, storeTo, allocate] at h
    repeat' split at h
    all_goals cases h

/-- A routine with the labels of another and a single instruction. -/
def Routine.only (r : Routine) (i : Inst) : Routine := { r with body := #[i] }

theorem step_only (i j : Inst) : step p (r.only i) f s j = step p r f s j := by
  cases j <;> rfl

/-- An instruction by itself is in order, and calls nothing if it is no call. -/
theorem InOrder.only (hr : InOrder p strict r) (hi : i ∈ r.body)
    (hcall : ∀ dst name args, i ≠ .call dst name args) : InOrder p True (r.only i) := by
  have hsame {j : Inst} (hj : j ∈ (r.only i).body) : j = i := by
    simpa [Routine.only] using hj
  refine ⟨?_, ?_, ?_, ?_, ?_⟩
  · intro j hj l hl
    rw [hsame hj] at hl
    exact hr.targets i hi l hl
  · intro dst name hj
    exact hr.globals dst name (hsame hj ▸ hi)
  · intro j hj l hl
    rw [hsame hj] at hl
    exact hr.data i hi l hl
  · intro dst k hj
    exact hr.params dst k (hsame hj ▸ hi)
  · intro _ dst name args hj
    exact absurd (hsame hj).symm (hcall dst name args)

/-- The step lemma: no instruction that ends a run by itself refuses a number of arguments. -/
theorem expected_of_done (hr : InOrder p strict r) (hi : i ∈ r.body) (hargs : f.args.length = r.arity)
    (h : step p r f s i = .done result t) : Expected True result := by
  by_cases hcall : ∃ dst name args, i = .call dst name args
  · obtain ⟨dst, name, args, rfl⟩ := hcall
    have hvalues : Expected True (values p f args) :=
      expected_values fun l hl => hr.data _ hi l hl
    simp only [step] at h
    split at h
    · rename_i e he
      rw [he] at hvalues
      cases h
      exact hvalues.error
    · cases h
  · have honly : InOrder p True (r.only i) := by
      refine hr.only hi ?_
      intro dst name args heq
      exact hcall ⟨dst, name, args, heq⟩
    have hfits := fits_step (s := s) honly (i := i) (by simp [Routine.only]) hargs
    rw [step_only, h] at hfits
    exact hfits

/-- A refusal that ends a run has its reason in the code. -/
def Attributed (p : Program) (result : Except Fault Int64) : Prop :=
  ∀ name expected got, result = .error (.argumentCount name expected got) →
    p.HasCall name got ∧ p.takes? name = some expected ∧ got ≠ expected

theorem Attributed.of_expected (h : Expected True result) : Attributed p result := by
  rintro name expected got rfl
  exact absurd trivial h

/-! Runs. -/

/-- The run lemma, by induction on the fuel. -/
theorem attributed_execute (hp : Tidy p strict) {caller : String} (hcaller : p.routines[caller]? = some r)
    (hargs : f.args.length = r.arity) (fuel : Nat) : Attributed p (execute p fuel r f s).1 := by
  have hloose : Tidy p False := fun name r hr => { hp name r hr with calls := nofun }
  induction fuel generalizing caller r f s with
  | zero => exact .of_expected trivial
  | succ fuel ih =>
    have hr := hp caller r hcaller
    rw [execute_succ]
    cases hat : r.body[f.pc]? with
    | none => exact .of_expected trivial
    | some i =>
      simp only
      have hi : i ∈ r.body := Array.mem_of_getElem? hat
      by_cases hlimit : p.limits.steps ≤ s.steps
      · rw [if_pos hlimit]
        exact .of_expected trivial
      rw [if_neg hlimit]
      have hstep : (next p r f s i).Fits p False f.args :=
        fits_step (hloose caller r hcaller) hi hargs
      cases hn : next p r f s i with
      | done result t =>
        have hdone : Expected True result := 
          expected_of_done (f := f.goto (f.pc + 1)) (s := tick s) hr hi hargs hn
        exact .of_expected hdone
      | go f' s' =>
        rw [hn] at hstep
        exact ih hcaller ((congrArg List.length hstep).trans hargs)
      | call dst name args f' s' =>
        rw [hn] at hstep
        obtain ⟨hsame, -⟩ := hstep
        have hresume (v : Int64) : (resume f' dst v).args.length = r.arity := by
          cases dst <;> exact (congrArg List.length hsame).trans hargs
        cases hd : dispatch p s' name args with
        | answer result =>
          simp only [hd]
          cases result with
          | error e =>
            rintro callee expected got ⟨⟩
            obtain ⟨rfl, htakes, rfl, hne⟩ := dispatch_refuses_iff.mp hd
            refine ⟨?_, htakes, hne⟩
            obtain ⟨os, rfl, hvalues⟩ := operands_of_call hn
            exact ⟨caller, r, dst, os, hcaller, hi, (length_values hvalues).symm⟩
          | ok v => exact ih hcaller (hresume v)
        | enter r' =>
          have hlength : args.length = r'.arity := by
            have haccepts : False → Accepts p name args.length := nofun
            have hcases := dispatch_cases (s := s') hloose haccepts
            rw [hd] at hcases
            exact hcases.2
          have hcallee := ih (f := Frame.enter r' args) (s := deeper s') (routine_of_dispatch hd) hlength
          obtain ⟨⟨result, t⟩, hc⟩ : ∃ x, execute p fuel r' (Frame.enter r' args) (deeper s') = x :=
            ⟨_, rfl⟩
          rw [hc] at hcallee
          simp only [hd, hc]
          cases result with
          | error e => exact hcallee
          | ok v => exact ih hcaller (hresume v)

/-- A call from outside with the right number of arguments. -/
theorem attributed_call (hp : Tidy p strict) (s : State) (h : Accepts p name args.length) :
    Attributed p (call p s name args).1 := by
  rw [call_eq]
  cases hd : dispatch p s name args with
  | answer result =>
    rintro callee expected got rfl
    obtain ⟨rfl, htakes, rfl, hne⟩ := dispatch_refuses_iff.mp hd
    exact absurd (takes_of_accepts h htakes) hne
  | enter r =>
    have hlength : args.length = r.arity := h.2 r (routine_of_dispatch hd)
    exact attributed_execute hp (routine_of_dispatch hd) hlength _

end MiniC.Machine
