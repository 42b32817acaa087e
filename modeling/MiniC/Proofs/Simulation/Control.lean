import MiniC.Proofs.Lowering.Invariant
import MiniC.Proofs.Simulation.Places
/-!
The shapes of branches and loops. A piece of code `Runs` as an action if it does what the action
does, wherever it is lowered. Main statements: the shapes run as evaluation chooses between their
parts and repeats them, whatever the parts are.
-/
namespace MiniC.Simulation

open Code (Inst Label Operand Temp)
open Evaluation (Action Counters Exit Resolve Scopes Store)
open Lowering (Agrees Extends Gives Grows Lower Plain bind_eq_ok emit_eq_ok freshLabel_eq_ok pure_eq_ok)
open Machine (Frame Kept next tick)

/-- The code from `s` to `s'` does what the action does, and `R` says what it yields. -/
structure Simulates {β : Type} (M : Setting) (targets : Option (Label × Label)) (scopes : Scopes)
    (s s' : Lowering.State) (k' : Counters) (R : Nat → β → Frame → Prop) (act : Action β) :
    Prop where
  agrees : Agrees scopes k' s'
  grows : Extends id s s'
  meets : M.Hosts s' → ∀ ⦃st f m⦄, At M scopes s st f m →
    Meets M targets s.temps f m st (Lands s' (R s'.temps)) (act st)

def Runs {α β : Type} (M : Setting) (targets : Option (Label × Label)) (scopes : Scopes)
    (code : Lower α) (sem : Resolve (Action β)) (R : α → Nat → β → Frame → Prop) : Prop :=
  ∀ ⦃s a s' k⦄, code s = .ok (a, s') → Agrees scopes k s →
    Simulates M targets scopes s s' (sem k).2 (R a) (sem k).1

/-- An operand for a value. -/
def Value (M : Setting) (v : Operand) (n : Nat) (w : Int64) (g : Frame) : Prop := Yields M n v w g

/-- Nothing is yielded. -/
def Silent {α β : Type} (_ : α) (_ : Nat) (_ : β) (_ : Frame) : Prop := True

section Steps

variable {β : Type} {M : Setting} {targets : Option (Label × Label)} {scopes : Scopes}
  {n n' : Nat} {s s' : Lowering.State} {st : Store} {f g : Frame} {m : Machine.State}
  {v : Operand} {b : Int64} {l : Label} {q : Nat}

/-- From where an action ends, the machine may go on without a change of the store. -/
theorem Meets.extend {Q Q' : β → Store → Frame → Prop} {x : EStateM.Result Exit Store β}
    (hx : Meets M targets n f m st Q x) (hn : n ≤ n')
    (hgo : ∀ b st' g u, Goes M n f m st g u st' → Q b st' g →
      ∃ h w, Goes M n' g u st' h w st' ∧ Q' b st' h) : Meets M targets n f m st Q' x := by
  rcases x with ⟨b, st'⟩ | ⟨e, st'⟩
  · obtain ⟨g, u, hfg, hq⟩ := hx
    obtain ⟨h, w, hgh, hq'⟩ := hgo b st' g u hfg hq
    exact ⟨h, w, hfg.trans hgh hn, hq'⟩
  · cases e <;> exact hx

theorem goes_label (hst : Stands M st f m) (hat : M.routine.body[f.pc]? = some (.label l))
    (n : Nat) : Goes M n f m st (f.goto (f.pc + 1)) (tick m) st :=
  .single hst hat rfl (Machine.kept_goto n f _) rfl

theorem goes_jump (hst : Stands M st f m) (hat : M.routine.body[f.pc]? = some (.jump l))
    (hl : Machine.position M.routine l = .ok q) (n : Nat) :
    Goes M n f m st (f.goto q) (tick m) st := by
  refine .single hst hat ?_ (Machine.kept_goto n f _) rfl
  simp only [next, Machine.step, Machine.jump, hl]
  rfl

theorem goes_branchUnless (hst : Stands M st f m)
    (hat : M.routine.body[f.pc]? = some (.branchUnless v l))
    (hv : Machine.value M.program f v = .ok b) (hl : Machine.position M.routine l = .ok q)
    (n : Nat) : Goes M n f m st (f.goto (if b = 0 then q else f.pc + 1)) (tick m) st := by
  refine .single hst hat ?_ (Machine.kept_goto n f _) rfl
  simp only [next, Machine.step, Machine.branch, Machine.value_goto, hv]
  by_cases hb : b = 0
  · simp only [hb, beq_self_eq_true, if_true, Machine.jump, hl]
    rfl
  · simp only [beq_eq_false_iff_ne.mpr hb, hb, if_false]
    rfl

theorem goes_branchIf (hst : Stands M st f m)
    (hat : M.routine.body[f.pc]? = some (.branchIf v l))
    (hv : Machine.value M.program f v = .ok b) (hl : Machine.position M.routine l = .ok q)
    (n : Nat) : Goes M n f m st (f.goto (if b = 0 then f.pc + 1 else q)) (tick m) st := by
  refine .single hst hat ?_ (Machine.kept_goto n f _) rfl
  simp only [next, Machine.step, Machine.branch, Machine.value_goto, hv]
  by_cases hb : b = 0
  · simp only [hb, bne_self_eq_false, if_true]
    rfl
  · simp only [bne_iff_ne, ne_eq, hb, not_false_iff, if_true, if_false, Machine.jump, hl]
    rfl

theorem goes_copy {t : Temp} (hst : Stands M st f m)
    (hat : M.routine.body[f.pc]? = some (.copy t v))
    (hv : Machine.value M.program f v = .ok b) (hn : n ≤ t) :
    Goes M n f m st ((f.goto (f.pc + 1)).set t b) (tick m) st := by
  refine .single hst hat ?_ ((Machine.kept_goto n f _).trans (Machine.kept_set _ b hn) le_rfl) rfl
  simp only [next, Machine.step, Machine.value_goto, hv]
  rfl

theorem code_emit {i : Inst} (hs : Lowering.emit i s = .ok ((), s')) :
    s'.code = s.code.push i := by
  rw [emit_eq_ok.mp hs]

theorem extends_label {kind : String} (hs : Lowering.freshLabel kind s = .ok (l, s')) :
    Extends id s s' :=
  Grows.extends_of (.freshLabel kind) hs

theorem temps_emit {i : Inst} (hs : Lowering.emit i s = .ok ((), s')) : s'.temps = s.temps := by
  rw [emit_eq_ok.mp hs]

theorem size_emit {i : Inst} (hs : Lowering.emit i s = .ok ((), s')) :
    s'.code.size = s.code.size + 1 := by
  rw [code_emit hs, Array.size_push]

theorem Setting.Hosts.emitted {i : Inst} (hM : M.Hosts s') (hs : Lowering.emit i s = .ok ((), s'))
    (hpc : f.pc = s.code.size) : M.routine.body[f.pc]? = some i :=
  hpc ▸ hM.at_push (code_emit hs)

/-- A label stands where it was emitted. -/
theorem Setting.Hosts.position (hM : M.Hosts s') (hs : Lowering.emit (.label l) s = .ok ((), s')) :
    Machine.position M.routine l = .ok s.code.size :=
  hM.sound.labels _ _ (hM.at_push (code_emit hs))

/-- Labels are given out without code. -/
theorem At.freshLabel {kind : String} (hat : At M scopes s st f m)
    (hs : Lowering.freshLabel kind s = .ok (l, s')) : At M scopes s' st f m := by
  obtain ⟨-, rfl⟩ := freshLabel_eq_ok.mp hs
  exact ⟨hat.toWithin, hat.pc⟩

theorem At.freshTemp {t : Temp} (hat : At M scopes s st f m)
    (hs : Lowering.freshTemp s = .ok (t, s')) : At M scopes s' st f m ∧ t = s.temps := by
  cases hs
  exact ⟨hat.toWithin.at_end (Nat.le_succ _) hat.pc, rfl⟩

/-- On over a label. -/
theorem At.label (hat : At M scopes s st f m) (hM : M.Hosts s')
    (hs : Lowering.emit (.label l) s = .ok ((), s')) :
    Goes M s.temps f m st (f.goto (f.pc + 1)) (tick m) st ∧
      At M scopes s' st (f.goto (f.pc + 1)) (tick m) := by
  have hgo := goes_label hat.toStands (hM.emitted hs hat.pc) s.temps
  refine ⟨hgo, hat.goes hgo (temps_emit hs).ge ?_⟩
  rw [size_emit hs, ← hat.pc]
  rfl

/-- From a jump to a label that stands at the end of `t`. -/
theorem At.jump {t : Lowering.State} (hat : At M scopes s st f m) (hM : M.Hosts s')
    (hs : Lowering.emit (.jump l) s = .ok ((), s'))
    (hl : Machine.position M.routine l = .ok t.code.size) (ht : s.temps ≤ t.temps) :
    Goes M s.temps f m st (f.goto t.code.size) (tick m) st ∧
      At M scopes t st (f.goto t.code.size) (tick m) := by
  have hgo := goes_jump hat.toStands (hM.emitted hs hat.pc) hl s.temps
  exact ⟨hgo, hat.goes hgo ht rfl⟩

/-- On over a copy, after which the temporary holds the value. -/
theorem At.copy {t : Temp} (hat : At M scopes s st f m) (hM : M.Hosts s')
    (hs : Lowering.emit (.copy t v) s = .ok ((), s')) (hv : Machine.value M.program f v = .ok b)
    (hn : n ≤ t) (ht : t < s.temps) :
    ∃ g, Goes M n f m st g (tick m) st ∧ g.pc = s'.code.size ∧
      Yields M s'.temps (.temp t) b g := by
  have hgo := goes_copy hat.toStands (hM.emitted hs hat.pc) hv hn
  refine ⟨_, hgo, ?_, ?_, ?_⟩
  · rw [size_emit hs, ← hat.pc]
    rfl
  · have hsize : t < f.temps.size := by
      rw [hat.temps]
      exact Nat.lt_of_lt_of_le ht (Nat.le_trans (temps_emit hs).ge hM.temps)
    exact congrArg Except.ok (Machine.getD_set_self (f.goto (f.pc + 1)) b hsize)
  · rw [temps_emit hs]
    exact ht

/-- A branch on zero goes on, or to a label that stands at the end of `t`. -/
theorem At.branchUnless {t : Lowering.State} (hat : At M scopes s st f m) (hM : M.Hosts s')
    (hs : Lowering.branchUnless v l s = .ok ((), s')) (hv : Yields M s.temps v b f)
    (hl : Machine.position M.routine l = .ok t.code.size) (ht : s.temps ≤ t.temps) :
    ∃ g, Goes M s.temps f m st g (tick m) st ∧
      (b = 0 → At M scopes t st g (tick m)) ∧ (b ≠ 0 → At M scopes s' st g (tick m)) := by
  have hgo := goes_branchUnless hat.toStands (hM.emitted hs hat.pc) hv.value hl s.temps
  refine ⟨_, hgo, fun hb => hat.goes hgo ht ?_, fun hb => hat.goes hgo (temps_emit hs).ge ?_⟩
  · rw [if_pos hb]
    rfl
  · rw [if_neg hb, size_emit hs, hat.pc]
    rfl

/-- A branch that is taken if the value is zero, for `&&`, or if it is not, for `||`. -/
theorem At.branchShort {t : Lowering.State} {isAnd : Bool} (hat : At M scopes s st f m)
    (hM : M.Hosts s')
    (hs : Lowering.emit (if isAnd then .branchUnless v l else .branchIf v l) s = .ok ((), s'))
    (hv : Yields M s.temps v b f) (hl : Machine.position M.routine l = .ok t.code.size)
    (ht : s.temps ≤ t.temps) :
    ∃ g, Goes M s.temps f m st g (tick m) st ∧
      ((b != 0) = isAnd → At M scopes s' st g (tick m)) ∧
      ((b != 0) ≠ isAnd → At M scopes t st g (tick m)) := by
  cases isAnd with
  | true =>
    obtain ⟨g, hgo, hzero, hone⟩ := hat.branchUnless hM hs hv hl ht
    refine ⟨g, hgo, fun hb => hone ?_, fun hb => hzero ?_⟩
    · exact bne_iff_ne.mp hb
    · by_contra hne
      exact hb (bne_iff_ne.mpr hne)
  | false =>
    have hgo := goes_branchIf hat.toStands (hM.emitted hs hat.pc) hv.value hl s.temps
    refine ⟨_, hgo, fun hb => hat.goes hgo (temps_emit hs).ge ?_, fun hb => hat.goes hgo ht ?_⟩
    · have hzero : b = 0 := by simpa using hb
      rw [if_pos hzero, size_emit hs, hat.pc]
      rfl
    · have hone : b ≠ 0 := by simpa using hb
      rw [if_neg hone]
      rfl

end Steps

/-! Loops, from their parts. -/

/-- Where the parts of a loop stand, and what they do there. -/
structure Rounds (M : Setting) (targets : Option (Label × Label)) (scopes : Scopes) (n : Nat)
    (top entry next stop : Nat) (test : Action Bool) (body update : Action Unit) : Prop where
  label : ∃ l, M.routine.body[top]? = some (.label l)
  test : ∀ ⦃st f m⦄, Within M scopes n st f m → f.pc = top + 1 →
    Meets M targets n f m st (fun b _ g => g.pc = if b then entry else stop) (test st)
  body : ∀ ⦃st f m⦄, Within M scopes n st f m → f.pc = entry →
    Meets M targets n f m st (fun b _ g => g.pc = if b then next else stop)
      (Evaluation.caught body st)
  update : ∀ ⦃st f m⦄, Within M scopes n st f m → f.pc = next →
    Meets M targets n f m st (fun _ _ g => g.pc = top) (update st)

section Loops

variable {M : Setting} {targets : Option (Label × Label)} {scopes : Scopes}
  {n top entry next stop : Nat} {test : Action Bool} {body update again : Action Unit}
  {st : Store} {f : Frame} {m : Machine.State}

/-- The machine has arrived at a position. -/
def Stops (stop : Nat) (_ : Unit) (_ : Store) (g : Frame) : Prop := g.pc = stop

theorem Rounds.meets_round (h : Rounds M targets scopes n top entry next stop test body update)
    (hst : Within M scopes n st f m) (hpc : f.pc = entry)
    (hagain : ∀ ⦃st' g u⦄, Within M scopes n st' g u → g.pc = top → m.steps ≤ u.steps →
      Meets M targets n g u st' (Stops stop) (again st')) :
    Meets M targets n f m st (Stops stop) (Evaluation.round body update again st) := by
  refine (h.body hst hpc).bind (Nat.le_refl _) fun b st₁ g u hgo hb => ?_
  cases b with
  | false => exact ⟨g, u, .refl hgo.stands n, hb⟩
  | true =>
    have hst₁ := hst.goes hgo
    refine (h.update hst₁ hb).bind (Nat.le_refl _) fun _ st₂ g₂ u₂ hgo₂ hpc₂ => ?_
    exact hagain (hst₁.goes hgo₂) hpc₂ (Nat.le_trans hgo.leads.steps hgo₂.leads.steps)

/-- Each round takes a step, so the rounds that are not evaluated are beyond the limit. -/
theorem Rounds.meets_rounds (h : Rounds M targets scopes n top entry next stop test body update)
    {count : Nat} (hst : Within M scopes n st f m) (hpc : f.pc = top)
    (hcount : M.limit ≤ m.steps + count) :
    Meets M targets n f m st (Stops stop) (Evaluation.rounds test body update count st) := by
  obtain ⟨l, hlabel⟩ := h.label
  induction count generalizing st f m with
  | zero => exact Machine.Exceeds.limit (hpc ▸ hlabel) hcount
  | succ count ih =>
    have hgo := goes_label hst.toStands (hpc ▸ hlabel) n
    refine Meets.after ?_ hgo (Nat.le_refl _)
    have htick : (tick m).steps = m.steps + 1 := rfl
    have hst₁ := hst.goes hgo
    refine (h.test hst₁ (congrArg (· + 1) hpc)).bind (Nat.le_refl _)
      fun b st₂ g₂ u₂ hgo₂ hb => ?_
    have hsteps := hgo₂.leads.steps
    cases b with
    | false => exact ⟨g₂, u₂, .refl hgo₂.stands n, hb⟩
    | true =>
      refine h.meets_round (hst₁.goes hgo₂) hb fun st' g u hst' hpc' hle => ?_
      exact ih hst' hpc' (by omega)

/-- A break or continue of the body gets to where the loop ends or goes on. -/
theorem meets_caught {l : Label × Label} {pos next : Nat}
    (hx : Meets M (some l) n f m st (fun _ _ g => g.pc = next) (body st))
    (hstop : Machine.position M.routine l.1 = .ok pos)
    (hnext : Machine.position M.routine l.2 = .ok next) :
    Meets M targets n f m st (fun b _ g => g.pc = if b then next else pos)
      (Evaluation.caught body st) := by
  unfold Evaluation.caught
  generalize body st = x at hx ⊢
  rcases x with ⟨_, st'⟩ | ⟨e, st'⟩
  · exact hx
  cases e with
  | broke =>
    obtain ⟨_, g, u, hl, hgo, hjump⟩ := hx
    cases hl
    exact ⟨_, _, hgo.trans (goes_jump hgo.stands hjump hstop n) (Nat.le_refl _), rfl⟩
  | continued =>
    obtain ⟨_, g, u, hl, hgo, hjump⟩ := hx
    cases hl
    exact ⟨_, _, hgo.trans (goes_jump hgo.stands hjump hnext n) (Nat.le_refl _), rfl⟩
  | fault e => exact hx
  | returned v => exact hx
  | unfinished => exact hx
  | stuck => exact hx

end Loops

/-- Code that leaves a loop for a label, unless the condition holds. -/
def Tests (M : Setting) (targets : Option (Label × Label)) (scopes : Scopes)
    (code : Label → Lower Unit) (sem : Resolve (Action Bool)) : Prop :=
  ∀ ⦃stop s s' k⦄, code stop s = .ok ((), s') → Agrees scopes k s →
    Agrees scopes (sem k).2 s' ∧ Extends id s s' ∧
      (M.Hosts s' → ∀ ⦃st f m pos⦄, At M scopes s st f m →
        Machine.position M.routine stop = .ok pos →
        Meets M targets s.temps f m st (fun b _ g => g.pc = if b then s'.code.size else pos)
          ((sem k).1 st))

section Shapes

variable {α β : Type} {M : Setting} {targets : Option (Label × Label)} {scopes : Scopes}

theorem Runs.of_eq {code code' : Lower α} {sem sem' : Resolve (Action β)}
    {R : α → Nat → β → Frame → Prop} (h : Runs M targets scopes code sem R) (hcode : code' = code)
    (hsem : ∀ k, sem' k = sem k) : Runs M targets scopes code' sem' R := by
  intro s a s' k hrun hk
  rw [hcode] at hrun
  rw [hsem]
  exact h hrun hk

variable {cond : Lower Operand} {semc : Resolve (Action Int64)} {yes no : Lower Unit}
  {semy semn : Resolve (Action Unit)}

theorem runs_ifElse (hc : Runs M targets scopes cond semc (Value M))
    (hy : Runs M targets scopes yes semy Silent) (hn : Runs M targets scopes no semn Silent) :
    Runs M targets scopes (Lowering.ifElse cond yes no) (do
      let b ← semc
      let y ← semy
      let n ← semn
      return Evaluation.conditional b y n) Silent := by
  intro s a s' k hrun hk
  obtain ⟨v, s₁, hcond, hrun⟩ := bind_eq_ok.mp hrun
  obtain ⟨other, s₂, hother, hrun⟩ := bind_eq_ok.mp hrun
  obtain ⟨stop, s₃, hstop, hrun⟩ := bind_eq_ok.mp hrun
  obtain ⟨⟨⟩, s₄, hbranch, hrun⟩ := bind_eq_ok.mp hrun
  obtain ⟨⟨⟩, s₅, hyes, hrun⟩ := bind_eq_ok.mp hrun
  obtain ⟨⟨⟩, s₆, hjump, hrun⟩ := bind_eq_ok.mp hrun
  obtain ⟨⟨⟩, s₇, hput, hrun⟩ := bind_eq_ok.mp hrun
  obtain ⟨⟨⟩, s₈, hno, hend⟩ := bind_eq_ok.mp hrun
  have h₃ := (extends_label hother).trans (extends_label hstop)
  have h₄ := extends_emit hbranch
  have h₆ := extends_emit hjump
  have h₇ := extends_emit hput
  have h₉ := extends_emit hend
  have hsc := hc hcond hk
  have hk₃ := (Plain.freshLabel _).agrees hstop ((Plain.freshLabel _).agrees hother hsc.agrees)
  have hsy := hy hyes ((Plain.emit rfl).agrees hbranch hk₃)
  have hsn := hn hno ((Plain.emit rfl).agrees hput ((Plain.emit rfl).agrees hjump hsy.agrees))
  have hgrows := h₃.trans (h₄.trans (hsy.grows.trans (h₆.trans (h₇.trans (hsn.grows.trans h₉)))))
  refine ⟨(Plain.emit rfl).agrees hend hsn.agrees, hsc.grows.trans hgrows, fun hM st f m hat => ?_⟩
  have hM₈ := hM.before h₉
  have hM₇ := hM₈.before hsn.grows
  have hM₆ := hM₇.before h₇
  have hM₄ := (hM₆.before h₆).before hsy.grows
  have ht₆ := h₆.trans (h₇.trans hsn.grows)
  refine (hsc.meets (hM.before hgrows) hat).seq hat hsc.grows.temps fun b st₁ g u hat₁ _ hv => ?_
  have hat₃ := (hat₁.freshLabel hother).freshLabel hstop
  obtain ⟨g, hgo, hzero, hone⟩ := hat₃.branchUnless hM₄ hbranch (hv.kept (.refl _ _) h₃.temps)
    (hM₇.position hput) (h₄.trans (hsy.grows.trans h₆)).temps
  by_cases hb : b = 0
  · simp only [hb, bne_self_eq_false, Bool.false_eq_true, if_false]
    obtain ⟨hgo₇, hat₇⟩ := (hzero hb).label hM₇ hput
    have hle := h₃.trans (h₄.trans (hsy.grows.trans (h₆.trans h₇)))
    refine ((hsn.meets hM₈ hat₇).extend hsn.grows.temps fun _ st₂ g₂ u₂ hgo₂ hq => ?_).after
      ((hgo.mono h₃.temps).trans hgo₇ (hle.temps.trans (temps_emit hput).le)) hle.temps
    obtain ⟨hgo₉, hat₉⟩ := (hat₇.goes hgo₂ hsn.grows.temps hq.1).label hM hend
    exact ⟨_, _, hgo₉, hat₉.pc, trivial⟩
  · simp only [bne_iff_ne, ne_eq, hb, not_false_iff, if_true]
    refine ((hsy.meets (hM₆.before h₆) (hone hb)).extend hsy.grows.temps
      fun _ st₂ g₂ u₂ hgo₂ hq => ?_).after (hgo.mono h₃.temps) (h₃.trans h₄).temps
    have hat₅ := (hone hb).goes hgo₂ hsy.grows.temps hq.1
    obtain ⟨hgo₆, hat₆⟩ := hat₅.jump hM₆ hjump (hM.position hend) ht₆.temps
    obtain ⟨hgo₉, hat₉⟩ := hat₆.label hM hend
    exact ⟨_, _, hgo₆.trans hgo₉ ht₆.temps, hat₉.pc, trivial⟩

theorem runs_ifOnly (hc : Runs M targets scopes cond semc (Value M))
    (hy : Runs M targets scopes yes semy Silent) :
    Runs M targets scopes (Lowering.ifOnly cond yes) (do
      let b ← semc
      let y ← semy
      return Evaluation.conditional b y (return ())) Silent := by
  intro s a s' k hrun hk
  obtain ⟨v, s₁, hcond, hrun⟩ := bind_eq_ok.mp hrun
  obtain ⟨skip, s₂, hskip, hrun⟩ := bind_eq_ok.mp hrun
  obtain ⟨stop, s₃, hstop, hrun⟩ := bind_eq_ok.mp hrun
  obtain ⟨⟨⟩, s₄, hbranch, hrun⟩ := bind_eq_ok.mp hrun
  obtain ⟨⟨⟩, s₅, hyes, hend⟩ := bind_eq_ok.mp hrun
  have h₃ := (extends_label hskip).trans (extends_label hstop)
  have h₄ := extends_emit hbranch
  have h₆ := extends_emit hend
  have hsc := hc hcond hk
  have hk₃ := (Plain.freshLabel _).agrees hstop ((Plain.freshLabel _).agrees hskip hsc.agrees)
  have hsy := hy hyes ((Plain.emit rfl).agrees hbranch hk₃)
  have hgrows := h₃.trans (h₄.trans (hsy.grows.trans h₆))
  refine ⟨(Plain.emit rfl).agrees hend hsy.agrees, hsc.grows.trans hgrows, fun hM st f m hat => ?_⟩
  have hM₅ := hM.before h₆
  refine (hsc.meets (hM.before hgrows) hat).seq hat hsc.grows.temps fun b st₁ g u hat₁ _ hv => ?_
  have hat₃ := (hat₁.freshLabel hskip).freshLabel hstop
  obtain ⟨g, hgo, hzero, hone⟩ := hat₃.branchUnless (hM₅.before hsy.grows) hbranch
    (hv.kept (.refl _ _) h₃.temps) (hM.position hend) (h₄.trans hsy.grows).temps
  by_cases hb : b = 0
  · simp only [hb, bne_self_eq_false, Bool.false_eq_true, if_false]
    obtain ⟨hgo₆, hat₆⟩ := (hzero hb).label hM hend
    exact ⟨_, _, (hgo.mono h₃.temps).trans hgo₆ (h₃.trans (h₄.trans hsy.grows)).temps, hat₆.pc,
      trivial⟩
  · simp only [bne_iff_ne, ne_eq, hb, not_false_iff, if_true]
    refine ((hsy.meets hM₅ (hone hb)).extend hsy.grows.temps
      fun _ st₂ g₂ u₂ hgo₂ hq => ?_).after (hgo.mono h₃.temps) (h₃.trans h₄).temps
    obtain ⟨hgo₆, hat₆⟩ := ((hone hb).goes hgo₂ hsy.grows.temps hq.1).label hM hend
    exact ⟨_, _, hgo₆, hat₆.pc, trivial⟩

variable {left right : Lower Operand} {seml semr : Resolve (Action Int64)}

theorem runs_conditional (hc : Runs M targets scopes cond semc (Value M))
    (hl : Runs M targets scopes left seml (Value M))
    (hr : Runs M targets scopes right semr (Value M)) :
    Runs M targets scopes (Lowering.conditional cond left right) (do
      let b ← semc
      let l ← seml
      let r ← semr
      return Evaluation.conditional b l r) (Value M) := by
  intro s a s' k hrun hk
  obtain ⟨v, s₁, hcond, hrun⟩ := bind_eq_ok.mp hrun
  obtain ⟨other, s₂, hother, hrun⟩ := bind_eq_ok.mp hrun
  obtain ⟨stop, s₃, hstop, hrun⟩ := bind_eq_ok.mp hrun
  obtain ⟨result, s₄, hresult, hrun⟩ := bind_eq_ok.mp hrun
  obtain ⟨⟨⟩, s₅, hbranch, hrun⟩ := bind_eq_ok.mp hrun
  obtain ⟨l, s₆, hleft, hrun⟩ := bind_eq_ok.mp hrun
  obtain ⟨⟨⟩, s₇, hcopy, hrun⟩ := bind_eq_ok.mp hrun
  obtain ⟨⟨⟩, s₈, hjump, hrun⟩ := bind_eq_ok.mp hrun
  obtain ⟨⟨⟩, s₉, hput, hrun⟩ := bind_eq_ok.mp hrun
  obtain ⟨r, t₁, hright, hrun⟩ := bind_eq_ok.mp hrun
  obtain ⟨⟨⟩, t₂, hcopy', hrun⟩ := bind_eq_ok.mp hrun
  obtain ⟨⟨⟩, t₃, hend, hrun⟩ := bind_eq_ok.mp hrun
  obtain ⟨rfl, rfl⟩ := pure_eq_ok.mp hrun
  have h₃ := (extends_label hother).trans (extends_label hstop)
  have h₄ := Grows.extends_of .freshTemp hresult
  have h₅ := extends_emit hbranch
  have h₇ := extends_emit hcopy
  have h₈ := extends_emit hjump
  have h₉ := extends_emit hput
  have h₂' := extends_emit hcopy'
  have h₃' := extends_emit hend
  have hsc := hc hcond hk
  have hk₃ := (Plain.freshLabel _).agrees hstop ((Plain.freshLabel _).agrees hother hsc.agrees)
  have hsl := hl hleft ((Plain.emit rfl).agrees hbranch (Plain.freshTemp.agrees hresult hk₃))
  have hsr := hr hright ((Plain.emit rfl).agrees hput ((Plain.emit rfl).agrees hjump
    ((Plain.emit rfl).agrees hcopy hsl.agrees)))
  have hyes := h₅.trans hsl.grows
  have hjumps := h₇.trans (h₈.trans h₉)
  have hno := hsr.grows.trans (h₂'.trans h₃')
  have hgrows := h₃.trans (h₄.trans (hyes.trans (hjumps.trans hno)))
  refine ⟨(Plain.emit rfl).agrees hend ((Plain.emit rfl).agrees hcopy' hsr.agrees),
    hsc.grows.trans hgrows, fun hM st f m hat => ?_⟩
  have hMt₂ := hM.before h₃'
  have hMt₁ := hMt₂.before h₂'
  have hM₉ := hMt₁.before hsr.grows
  have hM₈ := hM₉.before h₉
  have hM₇ := hM₈.before h₈
  have hM₆ := hM₇.before h₇
  refine (hsc.meets (hM.before hgrows) hat).seq hat hsc.grows.temps fun b st₁ g u hat₁ _ hv => ?_
  obtain ⟨hat₄, rfl⟩ := ((hat₁.freshLabel hother).freshLabel hstop).freshTemp hresult
  obtain ⟨g, hgo, hzero, hone⟩ := hat₄.branchUnless (hM₆.before hsl.grows) hbranch
    (hv.kept (.refl _ _) (h₃.trans h₄).temps) (hM₉.position hput)
    (hyes.trans (h₇.trans h₈)).temps
  have hresult' : s₃.temps < s₄.temps := by
    cases hresult
    exact Nat.lt_succ_self _
  have hto₉ := h₃.trans (h₄.trans (hyes.trans hjumps))
  by_cases hb : b = 0
  · simp only [hb, bne_self_eq_false, Bool.false_eq_true, if_false]
    obtain ⟨hgo₉, hat₉⟩ := (hzero hb).label hM₉ hput
    refine ((hsr.meets hMt₁ hat₉).after ((hgo.mono (h₃.trans h₄).temps).trans hgo₉
      (hto₉.temps.trans (temps_emit hput).le)) hto₉.temps).extend (Nat.le_refl _)
      fun w st₂ g₂ u₂ hgo₂ hq => ?_
    have hat₂ := hat₁.goes hgo₂ (hto₉.trans hsr.grows).temps hq.1
    obtain ⟨g₃, hgo₃, hpc₃, hw⟩ := hat₂.copy hMt₂ hcopy' hq.2.value h₃.temps
      (Nat.lt_of_lt_of_le hresult' (hyes.trans (hjumps.trans hsr.grows)).temps)
    have hat₃ := hat₁.goes (hgo₂.trans hgo₃ (Nat.le_refl _))
      (hto₉.trans (hsr.grows.trans h₂')).temps hpc₃
    obtain ⟨hgo₄, hat₄⟩ := hat₃.label hM hend
    refine ⟨_, _, hgo₃.trans hgo₄ (hto₉.trans (hsr.grows.trans h₂')).temps, hat₄.pc, ?_⟩
    exact hw.kept hgo₄.kept (temps_emit hend).ge
  · simp only [bne_iff_ne, ne_eq, hb, not_false_iff, if_true]
    refine ((hsl.meets hM₆ (hone hb)).after (hgo.mono (h₃.trans h₄).temps)
      (h₃.trans (h₄.trans h₅)).temps).extend (Nat.le_refl _) fun w st₂ g₂ u₂ hgo₂ hq => ?_
    have hto₆ := h₃.trans (h₄.trans hyes)
    have hat₂ := hat₁.goes hgo₂ hto₆.temps hq.1
    obtain ⟨g₃, hgo₃, hpc₃, hw⟩ := hat₂.copy hM₇ hcopy hq.2.value h₃.temps
      (Nat.lt_of_lt_of_le hresult' hyes.temps)
    have hat₃ := hat₁.goes (hgo₂.trans hgo₃ (Nat.le_refl _)) (hto₆.trans h₇).temps hpc₃
    obtain ⟨hgo₄, hat₄⟩ := hat₃.jump hM₈ hjump (hM.position hend)
      (h₈.trans (h₉.trans (hsr.grows.trans h₂'))).temps
    obtain ⟨hgo₅, hat₅⟩ := hat₄.label hM hend
    have hto₇ := hto₆.trans h₇
    have hend' := h₈.trans (h₉.trans (hsr.grows.trans h₂'))
    have hgo₆ := hgo₄.trans hgo₅ hend'.temps
    refine ⟨_, _, hgo₃.trans hgo₆ hto₇.temps, hat₅.pc, ?_⟩
    exact hw.kept hgo₆.kept (hend'.trans h₃').temps

theorem runs_logical {isAnd : Bool}
    (hl : Runs M targets scopes left seml (Value M))
    (hr : Runs M targets scopes right semr (Value M)) :
    Runs M targets scopes (Lowering.logical isAnd left right) (do
      let l ← seml
      let r ← semr
      return Evaluation.logical isAnd l r) (Value M) := by
  intro s a s' k hrun hk
  obtain ⟨result, s₁, hresult, hrun⟩ := bind_eq_ok.mp hrun
  obtain ⟨short, s₂, hshort, hrun⟩ := bind_eq_ok.mp hrun
  obtain ⟨stop, s₃, hstop, hrun⟩ := bind_eq_ok.mp hrun
  obtain ⟨l, s₄, hleft, hrun⟩ := bind_eq_ok.mp hrun
  obtain ⟨⟨⟩, s₅, hbranch, hrun⟩ := bind_eq_ok.mp hrun
  obtain ⟨r, s₆, hright, hrun⟩ := bind_eq_ok.mp hrun
  obtain ⟨truth, s₇, htruth, hrun⟩ := bind_eq_ok.mp hrun
  obtain ⟨⟨⟩, s₈, hcopy, hrun⟩ := bind_eq_ok.mp hrun
  obtain ⟨⟨⟩, s₉, hjump, hrun⟩ := bind_eq_ok.mp hrun
  obtain ⟨⟨⟩, t₁, hput, hrun⟩ := bind_eq_ok.mp hrun
  obtain ⟨⟨⟩, t₂, hcopy', hrun⟩ := bind_eq_ok.mp hrun
  obtain ⟨⟨⟩, t₃, hend, hrun⟩ := bind_eq_ok.mp hrun
  obtain ⟨rfl, rfl⟩ := pure_eq_ok.mp hrun
  have h₁ := Grows.extends_of .freshTemp hresult
  have h₃ := (extends_label hshort).trans (extends_label hstop)
  have h₅ := extends_emit hbranch
  have h₇ := Grows.extends_of (.define _) htruth
  have h₈ := extends_emit hcopy
  have h₉ := extends_emit hjump
  have h₁' := extends_emit hput
  have h₂' := extends_emit hcopy'
  have h₃' := extends_emit hend
  have hk₃ := (Plain.freshLabel _).agrees hstop ((Plain.freshLabel _).agrees hshort
    (Plain.freshTemp.agrees hresult hk))
  have hsl := hl hleft hk₃
  have hbranch' : Plain (Lowering.emit (if isAnd then .branchUnless l short else .branchIf l short)) :=
    .emit (by cases isAnd <;> rfl)
  have hsr := hr hright (hbranch'.agrees hbranch hsl.agrees)
  have hk₉ := (Plain.emit rfl).agrees hjump ((Plain.emit rfl).agrees hcopy
    ((Plain.define fun _ => rfl).agrees htruth hsr.agrees))
  have hto₄ := h₁.trans (h₃.trans hsl.grows)
  have hto₇ := h₅.trans (hsr.grows.trans h₇)
  have hfrom₈ := h₉.trans (h₁'.trans h₂')
  have hgrows := hto₇.trans (h₈.trans (hfrom₈.trans h₃'))
  refine ⟨(Plain.emit rfl).agrees hend ((Plain.emit rfl).agrees hcopy'
    ((Plain.emit rfl).agrees hput hk₉)), hto₄.trans hgrows, fun hM st f m hat => ?_⟩
  have hMt₂ := hM.before h₃'
  have hMt₁ := hMt₂.before h₂'
  have hM₉ := hMt₁.before h₁'
  have hM₈ := hM₉.before h₉
  have hM₇ := hM₈.before h₈
  have hM₆ := hM₇.before h₇
  obtain ⟨hat₁, rfl⟩ := hat.freshTemp hresult
  have hresult' : s.temps < s₄.temps := by
    refine Nat.lt_of_lt_of_le ?_ (h₃.trans hsl.grows).temps
    cases hresult
    exact Nat.lt_succ_self _
  have hat₃ := (hat₁.freshLabel hshort).freshLabel hstop
  refine (((hsl.meets (hM.before hgrows) hat₃).after (.refl hat.toStands s.temps)
    (h₁.trans h₃).temps).bind (Nat.le_refl _) fun b st₁ g u hfg hq => ?_)
  have hat₄ := hat.goes hfg hto₄.temps hq.1
  obtain ⟨g₂, hgo, hstay, hskip⟩ := hat₄.branchShort (hM₆.before hsr.grows) hbranch hq.2
    (hMt₁.position hput) (hto₇.trans (h₈.trans h₉)).temps
  replace hgo := hgo.mono hto₄.temps
  by_cases hb : (b != 0) = isAnd
  · simp only [hb, beq_self_eq_true, if_true]
    refine ((hsr.meets hM₆ (hstay hb)).after hgo (hto₄.trans h₅).temps).bind (Nat.le_refl _)
      fun w st₂ g₃ u₃ hgo₃ hq₃ => ?_
    have hat₆ := hat.goes (hfg.trans hgo₃ (Nat.le_refl _))
      (hto₄.trans (h₅.trans hsr.grows)).temps hq₃.1
    have htruth' : Gives M.program M.routine s₆ s₇ g₃ u₃ truth (.ok (Code.truth (w != 0))) :=
      Lowering.gives_binary htruth (hM₇.straight hat₆.toStands) hat₆.pc hq₃.2.value rfl
    obtain ⟨g₄, u₄, hgo₄, hpc₄, hv₄⟩ := meets_lift targets hat₆.toStands htruth'
    have hat₇ := hat₆.goes hgo₄ h₇.temps hpc₄
    obtain ⟨g₅, hgo₅, hpc₅, hv₅⟩ := hat₇.copy hM₈ hcopy hv₄.value (Nat.le_refl s.temps)
      (Nat.lt_of_lt_of_le hresult' hto₇.temps)
    have hgo₆ := (hgo₄.mono (hto₄.trans (h₅.trans hsr.grows)).temps).trans hgo₅ (Nat.le_refl _)
    have hat₈ := hat.goes (hfg.trans (hgo₃.trans hgo₆ (Nat.le_refl _)) (Nat.le_refl _))
      (hto₄.trans (hto₇.trans h₈)).temps hpc₅
    obtain ⟨hgo₇, hat₉⟩ := hat₈.jump hM₉ hjump (hM.position hend) hfrom₈.temps
    obtain ⟨hgo₈, hat₁₀⟩ := hat₉.label hM hend
    have hgo₉ := hgo₇.trans hgo₈ hfrom₈.temps
    refine ⟨_, _, hgo₆.trans hgo₉ (hto₄.trans (hto₇.trans h₈)).temps, hat₁₀.pc, ?_⟩
    exact hv₅.kept hgo₉.kept (hfrom₈.trans h₃').temps
  · have hne : ((b != 0) == isAnd) = false := beq_eq_false_iff_ne.mpr hb
    simp only [hne, Bool.false_eq_true, if_false]
    obtain ⟨hgo₁, hat₁'⟩ := (hskip hb).label hMt₁ hput
    have hto₁ := hto₇.trans (h₈.trans (h₉.trans h₁'))
    have hvalue : (if isAnd then 0 else 1) = Code.truth (b != 0) := by
      cases isAnd with
      | true =>
        have hzero : (b != 0) = false := by simpa using hb
        rw [hzero]
        rfl
      | false =>
        have hone : (b != 0) = true := by simpa using hb
        rw [hone]
        rfl
    obtain ⟨g₃, hgo₂, hpc₂, hv₂⟩ := hat₁'.copy hMt₂ hcopy' (congrArg Except.ok hvalue)
      (Nat.le_refl s.temps) (Nat.lt_of_lt_of_le hresult' hto₁.temps)
    have hgo₃ := hgo.trans ((hgo₁.mono ((hto₄.trans hto₁).temps.trans
      (temps_emit hput).le)).trans hgo₂ (Nat.le_refl _)) (Nat.le_refl _)
    have hat₂' := hat.goes (hfg.trans hgo₃ (Nat.le_refl _))
      (hto₄.trans (hto₁.trans h₂')).temps hpc₂
    obtain ⟨hgo₄, hat₃'⟩ := hat₂'.label hM hend
    refine ⟨_, _, hgo₃.trans hgo₄ (hto₄.trans (hto₁.trans h₂')).temps, hat₃'.pc, ?_⟩
    exact hv₂.kept hgo₄.kept (temps_emit hend).ge

theorem runs_loop {testsFirst : Bool} {test : Label → Lower Unit}
    {body : Label → Label → Lower Unit} {update : Lower Unit} {semt : Resolve (Action Bool)}
    {semb semu : Resolve (Action Unit)} (ht : Tests M targets scopes test semt)
    (hb : ∀ stop next, Runs M (some (stop, next)) scopes (body stop next) semb Silent)
    (hu : Runs M targets scopes update semu Silent) :
    Runs M targets scopes (Lowering.loop testsFirst test body update) (do
      let t ← semt
      let b ← semb
      let u ← semu
      return Evaluation.loop testsFirst t b u M.rounds) Silent := by
  intro s a s' k hrun hk
  obtain ⟨top, s₁, htop, hrun⟩ := bind_eq_ok.mp hrun
  obtain ⟨entry, s₂, hentry, hrun⟩ := bind_eq_ok.mp hrun
  obtain ⟨next, s₃, hnext, hrun⟩ := bind_eq_ok.mp hrun
  obtain ⟨stop, s₄, hstop, hrun⟩ := bind_eq_ok.mp hrun
  -- The code begins with a jump to the body, if the test comes after it.
  obtain ⟨s₅, hfirst, hrun⟩ : ∃ s₅, (if testsFirst then s₅ = s₄ else
      Lowering.emit (.jump entry) s₄ = .ok ((), s₅)) ∧ (do
        Lowering.emit (.label top); test stop; Lowering.emit (.label entry); body stop next
        Lowering.emit (.label next); update; Lowering.emit (.jump top)
        Lowering.emit (.label stop)) s₅ = .ok (a, s') := by
    cases testsFirst with
    | true => exact ⟨s₄, rfl, hrun⟩
    | false =>
      obtain ⟨⟨⟩, s₅, hjump, hrun⟩ := bind_eq_ok.mp hrun
      exact ⟨s₅, hjump, hrun⟩
  obtain ⟨⟨⟩, s₆, hput₁, hrun⟩ := bind_eq_ok.mp hrun
  obtain ⟨⟨⟩, s₇, htest, hrun⟩ := bind_eq_ok.mp hrun
  obtain ⟨⟨⟩, s₈, hput₂, hrun⟩ := bind_eq_ok.mp hrun
  obtain ⟨⟨⟩, s₉, hbody, hrun⟩ := bind_eq_ok.mp hrun
  obtain ⟨⟨⟩, t₁, hput₃, hrun⟩ := bind_eq_ok.mp hrun
  obtain ⟨⟨⟩, t₂, hupdate, hrun⟩ := bind_eq_ok.mp hrun
  obtain ⟨⟨⟩, t₃, hback, hend⟩ := bind_eq_ok.mp hrun
  have h₄ := (extends_label htop).trans ((extends_label hentry).trans ((extends_label hnext).trans
    (extends_label hstop)))
  have hk₄ := (Plain.freshLabel _).agrees hstop ((Plain.freshLabel _).agrees hnext
    ((Plain.freshLabel _).agrees hentry ((Plain.freshLabel _).agrees htop hk)))
  have h₅ : Extends id s₄ s₅ ∧ Agrees scopes k s₅ := by
    cases testsFirst with
    | true =>
      obtain rfl : s₅ = s₄ := hfirst
      exact ⟨.refl id s₅, hk₄⟩
    | false => exact ⟨extends_emit hfirst, (Plain.emit rfl).agrees hfirst hk₄⟩
  obtain ⟨hkt, h₇, htest'⟩ := ht htest ((Plain.emit rfl).agrees hput₁ h₅.2)
  have hsb := hb stop next hbody ((Plain.emit rfl).agrees hput₂ hkt)
  have hsu := hu hupdate ((Plain.emit rfl).agrees hput₃ hsb.agrees)
  have h₆ := extends_emit hput₁
  have h₈ := extends_emit hput₂
  have h₁ := extends_emit hput₃
  have h₃ := extends_emit hback
  have hlast := extends_emit hend
  have hto₅ := h₄.trans h₅.1
  have hto₇ := hto₅.trans (h₆.trans h₇)
  have hto₉ := hto₇.trans (h₈.trans hsb.grows)
  have hto₂ := hto₉.trans (h₁.trans hsu.grows)
  refine ⟨(Plain.emit rfl).agrees hend ((Plain.emit rfl).agrees hback hsu.agrees),
    hto₂.trans (h₃.trans hlast), fun hM st f m hat => ?_⟩
  have hMt₃ := hM.before hlast
  have hMt₂ := hMt₃.before h₃
  have hMt₁ := hMt₂.before hsu.grows
  have hM₉ := hMt₁.before h₁
  have hM₈ := hM₉.before hsb.grows
  have hM₇ := hM₈.before h₈
  have hM₆ := hM₇.before h₇
  have hrounds : Rounds M targets scopes s.temps s₅.code.size s₇.code.size s₉.code.size
      t₃.code.size (semt k).1 (semb (semt k).2).1 (semu (semb (semt k).2).2).1 := by
    refine ⟨⟨top, hM₆.at_push (code_emit hput₁)⟩, fun st f m hst hpc => ?_, fun st f m hst hpc => ?_,
      fun st f m hst hpc => ?_⟩
    · have hat₆ := hst.at_end (hto₅.trans h₆).temps (hpc.trans (size_emit hput₁).symm)
      exact (htest' hM₇ hat₆ (hM.position hend)).after (.refl hst.toStands _) (hto₅.trans h₆).temps
    · have hat₇ := hst.at_end hto₇.temps hpc
      obtain ⟨hgo, hat₈⟩ := hat₇.label hM₈ hput₂
      refine meets_caught (l := (stop, next)) ?_ (hM.position hend) (hMt₁.position hput₃)
      refine ((hsb.meets hM₉ hat₈).imp fun _ _ _ _ _ hq => hq.1).after (hgo.mono hto₇.temps)
        (hto₇.trans h₈).temps
    · have hat₉ := hst.at_end hto₉.temps hpc
      obtain ⟨hgo, hat₁⟩ := hat₉.label hMt₁ hput₃
      refine ((hsu.meets hMt₂ hat₁).after (hgo.mono hto₉.temps) (hto₉.trans h₁).temps).extend
        (Nat.le_refl _) fun _ st' g u hgo' hq => ?_
      have hat₂ := (hst.goes hgo').at_end hto₂.temps hq.1
      have hjump := goes_jump hat₂.toStands (hMt₃.emitted hback hat₂.pc) (hM₆.position hput₁) s.temps
      exact ⟨_, _, hjump, rfl⟩
  have hloop : Meets M targets s.temps f m st (Stops t₃.code.size) (Evaluation.loop testsFirst
      (semt k).1 (semb (semt k).2).1 (semu (semb (semt k).2).2).1 M.rounds st) := by
    have hat₄ := (((hat.freshLabel htop).freshLabel hentry).freshLabel hnext).freshLabel hstop
    cases testsFirst with
    | true =>
      obtain rfl : s₅ = s₄ := hfirst
      exact hrounds.meets_rounds hat.toWithin hat₄.pc hat.steps
    | false =>
      have hgo := goes_jump hat₄.toStands ((hM₆.before h₆).emitted hfirst hat₄.pc)
        (hM₈.position hput₂) s.temps
      refine (hrounds.meets_round (hat.toWithin.goes hgo) rfl fun st' g u hst hpc hle => ?_).after
        hgo (Nat.le_refl _)
      exact hrounds.meets_rounds hst hpc (hst.steps)
  refine hloop.extend (Nat.le_refl _) fun _ st' g u hgo hpc => ?_
  have hat₃ := (hat.toWithin.goes hgo).at_end (hto₂.trans h₃).temps hpc
  obtain ⟨hgo', hat'⟩ := hat₃.label hM hend
  exact ⟨_, _, hgo'.mono (hto₂.trans h₃).temps, hat'.pc, trivial⟩

end Shapes

end MiniC.Simulation
