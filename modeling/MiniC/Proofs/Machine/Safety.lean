import MiniC.Proofs.Machine.Ending
import MiniC.Proofs.Machine.Image
/-!
Runs of code that is in order. What it names is there, so no run gets stuck for want of a label or a
symbol, nor, where all calls fit, of an argument. Main statement: a call of a routine whose program
is in order ends with none of these faults.
-/
namespace MiniC.Machine

open Code (Inst Label Names Operand Temp)

variable {α : Type} {strict : Prop}

/-- An outcome that code in order may have; all calls fit if `strict` holds. -/
def Expected (strict : Prop) : Except Fault α → Prop
  | .error (.unknownLabel _) | .error (.undefinedSymbol _) => False
  | .error (.argumentCount ..) => ¬ strict
  | _ => True

theorem Expected.error {β : Type} {e : Fault} (h : Expected strict (.error e : Except Fault α)) :
    Expected strict (.error e : Except Fault β) := by
  cases e <;> exact h

/-- A fault is passed on, or what follows decides. -/
theorem Expected.of {β : Type} {x : Except Fault α} {y : Except Fault β} (hx : Expected strict x)
    (herror : ∀ e, x = .error e → y = .error e) (hok : ∀ a, x = .ok a → Expected strict y) :
    Expected strict y := by
  cases x with
  | error e =>
    rw [herror e rfl]
    exact hx.error
  | ok a => exact hok a rfl

/-- A call of that name with so many arguments is not refused for their number. -/
def Accepts (p : Program) (name : String) (count : Nat) : Prop :=
  (name = assertName → count = 2) ∧ ∀ r, p.routines[name]? = some r → count = r.arity

/-- What a routine's code names is there. -/
structure InOrder (p : Program) (strict : Prop) (r : Routine) : Prop where
  targets : ∀ i ∈ r.body, ∀ l, i.target? = some l → r.labels[l]?.isSome
  globals : ∀ dst name, .addressOf dst name ∈ r.body → p.symbols[name]?.isSome
  data : ∀ i ∈ r.body, ∀ l, .data l ∈ i.operands → p.symbols[l]?.isSome
  params : ∀ dst k, .param dst k ∈ r.body → k < r.arity
  calls : strict → ∀ dst name args, .call dst name args ∈ r.body → Accepts p name args.length

/-- Orderly code is in order, given the symbols that it may name. -/
theorem InOrder.of_orderly {p : Program} {N : Names} {data : List Label} {S : Code.Summary}
    {f : Code.Function} (h : Code.Orderly N f.temps data S f.body)
    (hglobals : ∀ name, N.globals name → p.symbols[name]?.isSome)
    (hdata : ∀ l ∈ data, p.symbols[l]?.isSome) (harity : N.arity = f.params.length)
    (hcalls : strict → ∀ name count, N.fits name count → Accepts p name count) :
    InOrder p strict (Routine.ofFunction f) := by
  have hbody {i : Inst} (hi : i ∈ (Routine.ofFunction f).body) : i ∈ f.body :=
    List.mem_toArray.mp hi
  refine ⟨?_, ?_, ?_, ?_, ?_⟩
  · intro i hi l hl
    exact isSome_labelPositions h.labels (h.targets i (hbody hi) l hl)
  · intro dst name hi
    exact hglobals name (h.fine _ (hbody hi)).names
  · intro i hi l hl
    exact hdata l ((h.fine i (hbody hi)).data l hl)
  · intro dst k hi
    exact Nat.lt_of_lt_of_eq (h.fine _ (hbody hi)).names harity
  · intro hstrict dst name args hi
    exact hcalls hstrict name args.length (h.fine _ (hbody hi)).names

/-! One instruction. -/

section Step

variable {p : Program} {r : Routine} {f f' : Frame} {s s' : State} {i : Inst} {o : Operand}

theorem expected_locate (m : Memory) (address : Int64) (size : Nat) :
    Expected strict (m.locate address size) := by
  simp only [Memory.locate]
  repeat' split
  all_goals trivial

theorem expected_reserve (s : State) (size align : Nat) : Expected strict (reserve s size align) := by
  unfold reserve
  repeat' split
  all_goals trivial

theorem expected_value (h : ∀ l, o = .data l → p.symbols[l]?.isSome) :
    Expected strict (value p f o) := by
  cases o with
  | data l =>
    obtain ⟨address, haddress⟩ := Option.isSome_iff_exists.mp (h l rfl)
    simp only [value, haddress]
    trivial
  | _ => trivial

theorem expected_values {os : List Operand} (h : ∀ l, .data l ∈ os → p.symbols[l]?.isSome) :
    Expected strict (values p f os) := by
  induction os with
  | nil => trivial
  | cons o os ih =>
    have ho : Expected strict (value p f o) :=
      expected_value fun l hl => h l (hl ▸ List.mem_cons_self ..)
    have hos := ih fun l hl => h l (List.mem_cons_of_mem _ hl)
    simp only [values]
    refine ho.of (fun e he => by simp only [he]) fun v hv => ?_
    refine hos.of (fun e he => by simp only [hv, he]) fun vs hvs => ?_
    simp only [hv, hvs]
    trivial

theorem length_values {os : List Operand} {vs : List Int64} (h : values p f os = .ok vs) :
    vs.length = os.length := by
  induction os generalizing vs with
  | nil =>
    cases h
    rfl
  | cons o os ih =>
    simp only [values] at h
    cases hv : value p f o with
    | error e => simp only [hv] at h; cases h
    | ok v =>
      cases hvs : values p f os with
      | error e => simp only [hv, hvs] at h; cases h
      | ok ws =>
        simp only [hv, hvs] at h
        cases h
        exact congrArg (· + 1) (ih hvs)

/-- What an instruction of code in order leads to. -/
def Next.Fits (p : Program) (strict : Prop) (args : List Int64) : Next → Prop
  | .go f _ => f.args = args
  | .call _ name given f _ => f.args = args ∧ (strict → Accepts p name given.length)
  | .done result _ => Expected strict result

theorem Next.Fits.of_value (s : State) {x : Except Fault α} {n : Next} {args : List Int64}
    (hx : Expected strict x)
    (herror : ∀ e, x = .error e → n = .done (.error e) s)
    (hok : ∀ a, x = .ok a → n.Fits p strict args) : n.Fits p strict args := by
  cases x with
  | error e =>
    rw [herror e rfl]
    exact hx.error
  | ok a => exact hok a rfl

theorem fits_assign {v : Except Fault Int64} (dst : Temp) (h : Expected strict v) :
    (assign f s dst v).Fits p strict f.args := by
  cases v with
  | error e => exact h
  | ok v => rfl

theorem fits_jump {target : Label} (h : r.labels[target]?.isSome) :
    (jump r f s target).Fits p strict f.args := by
  obtain ⟨pc, hpc⟩ := Option.isSome_iff_exists.mp h
  simp only [jump, position, hpc]
  rfl

theorem fits_branch {cond : Operand} {target : Label} (taken : Int64 → Bool)
    (hcond : ∀ l, cond = .data l → p.symbols[l]?.isSome) (h : r.labels[target]?.isSome) :
    (branch p r f s cond target taken).Fits p strict f.args := by
  refine Next.Fits.of_value s (expected_value (f := f) hcond) (fun e he => ?_) fun v hv => ?_
  · simp only [branch, he]
  · simp only [branch, hv]
    split
    · exact fits_jump h
    · rfl

/-- The step lemma: an instruction keeps the arguments, and stops for no unexpected reason. -/
theorem fits_step (hr : InOrder p strict r) (hi : i ∈ r.body) (hargs : f.args.length = r.arity) :
    (step p r f s i).Fits p strict f.args := by
  have hdata {o : Operand} (ho : o ∈ i.operands) : Expected strict (value p f o) :=
    expected_value fun l hl => hr.data i hi l (hl ▸ ho)
  cases i with
  | label name => rfl
  | comment text => rfl
  | copy dst src => exact fits_assign dst (hdata (List.mem_singleton.mpr rfl))
  | unary dst op src =>
    refine fits_assign dst ((hdata (o := src) (List.mem_singleton.mpr rfl)).of (fun e he => ?_)
      fun v hv => ?_)
    · simp only [he]
    · simp only [hv]
      trivial
  | binary dst op left right =>
    refine fits_assign dst ((hdata (o := left) (by simp [Inst.operands])).of (fun e he => ?_)
      fun v hv => (hdata (o := right) (by simp [Inst.operands])).of (fun e he => ?_) fun w hw => ?_)
    · simp only [he]
    · simp only [hv, he]
    · simp only [hv, hw]
      cases op.eval v w <;> trivial
  | cast dst src access =>
    refine fits_assign dst ((hdata (o := src) (List.mem_singleton.mpr rfl)).of (fun e he => ?_)
      fun v hv => ?_)
    · simp only [he]
    · simp only [hv]
      trivial
  | load dst base offset access =>
    refine fits_assign dst ((hdata (o := base) (List.mem_singleton.mpr rfl)).of (fun e he => ?_)
      fun address hv => (expected_locate s.memory (address + offset) access.size).of (fun e he => ?_)
        fun start hstart => ?_)
    · simp only [he]
    · simp only [hv, Memory.load, he]
    · simp only [hv, Memory.load, hstart]
      trivial
  | store base offset src size =>
    refine Next.Fits.of_value s (hdata (o := base) (by simp [Inst.operands])) (fun e he => ?_)
      fun address hv => Next.Fits.of_value s (hdata (o := src) (by simp [Inst.operands]))
        (fun e he => ?_) fun v hw => Next.Fits.of_value s
          (expected_locate s.memory (address + offset) size) (fun e he => ?_) fun start hstart => ?_
    · simp only [step, storeTo, he]
    · simp only [step, storeTo, hv, he]
    · simp only [step, storeTo, hv, hw, he]
    · simp only [step, storeTo, hv, hw, hstart]
      rfl
  | jump target => exact fits_jump (hr.targets _ hi target rfl)
  | branchIf cond target =>
    exact fits_branch _ (fun l hl => hr.data _ hi l (by simp [Inst.operands, hl]))
      (hr.targets _ hi target rfl)
  | branchUnless cond target =>
    exact fits_branch _ (fun l hl => hr.data _ hi l (by simp [Inst.operands, hl]))
      (hr.targets _ hi target rfl)
  | call dst name args =>
    have hvalues : Expected strict (values p f args) :=
      expected_values fun l hl => hr.data _ hi l hl
    refine Next.Fits.of_value s hvalues (fun e he => ?_) fun vs hvs => ?_
    · simp only [step, he]
    · simp only [step, hvs]
      exact ⟨rfl, fun h => length_values hvs ▸ hr.calls h dst name args hi⟩
  | ret result =>
    cases result with
    | none => trivial
    | some o => exact hdata (List.mem_singleton.mpr rfl)
  | alloca dst size align =>
    simp only [step, allocate]
    split
    · rfl
    · refine Next.Fits.of_value s (expected_reserve s size align) (fun e he => ?_) fun place hplace => ?_
      · simp only [he]
      · simp only [hplace]
        rfl
  | addressOf dst name =>
    obtain ⟨address, haddress⟩ := Option.isSome_iff_exists.mp (hr.globals dst name hi)
    simp only [step, haddress]
    rfl
  | param dst index =>
    have hlt : index < f.args.length := hargs ▸ hr.params dst index hi
    simp only [step, List.getElem?_eq_getElem hlt]
    rfl

end Step

/-! Runs. -/

/-- Every routine of a program is in order. -/
def Tidy (p : Program) (strict : Prop) : Prop :=
  ∀ (name : String) (r : Routine), p.routines[name]? = some r → InOrder p strict r

section Runs

variable {p : Program} {r : Routine} {f : Frame} {s : State}

theorem expected_runAssert {args : List Int64} (h : strict → args.length = 2) :
    Expected strict (runAssert args) := by
  unfold runAssert
  split
  · split <;> trivial
  · rename_i hne
    intro hstrict
    obtain ⟨a, b, rfl⟩ := List.length_eq_two.mp (h hstrict)
    exact hne a b rfl

/-- A call that fits is answered as expected, or enters a routine with all its arguments. -/
theorem dispatch_cases (hp : Tidy p strict) {name : String} {args : List Int64}
    (h : strict → Accepts p name args.length) :
    match dispatch p s name args with
    | .answer result => Expected strict result
    | .enter r => InOrder p strict r ∧ args.length = r.arity := by
  unfold dispatch
  by_cases hname : name = assertName
  · simp only [hname, if_true]
    exact expected_runAssert fun hstrict => (h hstrict).1 hname
  · simp only [hname, if_false, callee]
    cases hr : p.routines[name]? with
    | none => trivial
    | some r =>
      simp only
      by_cases hlength : args.length = r.arity
      · by_cases hdepth : s.depth < p.limits.callDepth
        · simp only [hlength, hdepth, if_true]
          exact ⟨hp name r hr, trivial⟩
        · simp only [hlength, hdepth, if_true, if_false]
          trivial
      · simp only [hlength, if_false]
        exact fun hstrict => hlength ((h hstrict).2 r hr)

/-- The run lemma, by induction on the fuel. -/
theorem expected_execute (hp : Tidy p strict) (hr : InOrder p strict r)
    (hargs : f.args.length = r.arity) (fuel : Nat) :
    Expected strict (execute p fuel r f s).1 := by
  induction fuel generalizing r f s with
  | zero => trivial
  | succ fuel ih =>
    rw [execute_succ]
    cases hat : r.body[f.pc]? with
    | none => trivial
    | some i =>
      simp only
      by_cases hlimit : p.limits.steps ≤ s.steps
      · rw [if_pos hlimit]
        trivial
      rw [if_neg hlimit]
      have hstep : (next p r f s i).Fits p strict f.args :=
        fits_step hr (Array.mem_of_getElem? hat) hargs
      cases hn : next p r f s i with
      | done result t =>
        rw [hn] at hstep
        exact hstep
      | go f' s' =>
        rw [hn] at hstep
        exact ih hr ((congrArg List.length hstep).trans hargs)
      | call dst name args f' s' =>
        rw [hn] at hstep
        obtain ⟨hsame, haccepts⟩ := hstep
        have hdispatch := dispatch_cases (s := s') hp haccepts
        have hresume (v : Int64) : (resume f' dst v).args.length = r.arity := by
          cases dst <;> exact (congrArg List.length hsame).trans hargs
        cases hd : dispatch p s' name args with
        | answer result =>
          rw [hd] at hdispatch
          simp only [hd]
          cases result with
          | error e => exact hdispatch
          | ok v => exact ih hr (hresume v)
        | enter r' =>
          rw [hd] at hdispatch
          have hcallee := ih (f := Frame.enter r' args) (s := deeper s') hdispatch.1 hdispatch.2
          obtain ⟨⟨result, t⟩, hc⟩ : ∃ x, execute p fuel r' (Frame.enter r' args) (deeper s') = x :=
            ⟨_, rfl⟩
          rw [hc] at hcallee
          simp only [hd, hc]
          cases result with
          | error e => exact hcallee
          | ok v => exact ih hr (hresume v)

theorem expected_call (hp : Tidy p strict) (s : State) {name : String} {args : List Int64}
    (h : Accepts p name args.length) : Expected strict (call p s name args).1 := by
  have hdispatch := dispatch_cases (s := s) hp fun _ => h
  rw [call_eq]
  cases hd : dispatch p s name args with
  | answer result =>
    rw [hd] at hdispatch
    exact hdispatch
  | enter r =>
    rw [hd] at hdispatch
    exact expected_execute hp hdispatch.1 hdispatch.2 _

end Runs

end MiniC.Machine
