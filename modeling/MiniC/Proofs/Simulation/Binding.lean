import MiniC.Proofs.Simulation.Forms
/-!
Code that binds names and code that fills objects, with the leaves of the tree. Main statements: a
scope forgets what is bound in it, what follows a declaration sees what it declares, and storage for
a local is there before its initializer runs.
-/
namespace MiniC.Simulation

open Code (Inst Label Operand Temp)
open Evaluation (Action Context Counters Denoted Exit Resolve Scopes Store)
open Lowering (Agrees Counted Extends Gives Grows Lower Lowered Place Plain allocations bind_eq_ok
  emit_eq_ok map_eq_ok need_eq_ok pure_eq_ok)
open Machine (Frame Kept next tick)
open Syntax

/-- The context in which a tree is lowered that is evaluated in `c`. -/
def inCode (c : Context) (targets : Option (Label × Label)) : Lowering.Context :=
  ⟨c.registry, c.returns, targets.map (·.1), targets.map (·.2)⟩

@[simp]
theorem inCode_registry (c : Context) (targets : Option (Label × Label)) :
    (inCode c targets).registry = c.registry :=
  rfl

/-- What surrounds a tree is what the machine has. -/
structure Fits (M : Setting) (targets : Option (Label × Label)) (c : Context) : Prop where
  global : ∀ name, c.global name = M.program.symbols[name]?
  text : ∀ n, c.text n = M.text n
  call : Answers M c.call
  rounds : c.rounds = M.rounds
  inLoop : c.inLoop = targets.isSome

/-! Trees that declare, and trees that fill an object. -/

/-- As `Simulates`, for code that binds names in the innermost scope. -/
structure Encloses {β : Type} (M : Setting) (targets : Option (Label × Label)) (scopes : Scopes)
    (s s' : Lowering.State) (k' : Counters) (R : Nat → β → Frame → Prop) (act : Action β) :
    Prop where
  counted : Counted k' s'
  grows : Extends List.tail s s'
  meets : M.Hosts s' → ∀ ⦃st f m⦄, At M scopes s st f m →
    Meets M targets s.temps f m st (Lands s' (R s'.temps)) (act st)

def RunsInside {α β : Type} (M : Setting) (targets : Option (Label × Label)) (scopes : Scopes)
    (code : Lower α) (sem : Resolve (Action β)) (R : α → Nat → β → Frame → Prop) : Prop :=
  ∀ ⦃s a s' k⦄, code s = .ok (a, s') → Agrees scopes k s →
    Encloses M targets scopes s s' (sem k).2 (R a) (sem k).1

/-- As `Simulates`, for code after which the scopes are `scopes'`. -/
structure Declares (M : Setting) (targets : Option (Label × Label)) (scopes : Scopes)
    (s s' : Lowering.State) (k' : Counters) (scopes' : Scopes) (act : Action Unit) : Prop where
  agrees : Agrees scopes' k' s'
  grows : Extends List.tail s s'
  meets : M.Hosts s' → ∀ ⦃st f m⦄, At M scopes s st f m →
    Meets M targets s.temps f m st
      (fun _ st' g => g.pc = s'.code.size ∧ Held M scopes' s'.temps st' g) (act st)

def RunsDeclaring (M : Setting) (targets : Option (Label × Label)) (scopes : Scopes)
    (code : Lower Unit) (sem : Resolve (Action Unit × Scopes)) : Prop :=
  ∀ ⦃s u s' k⦄, code s = .ok (u, s') → Agrees scopes k s →
    Declares M targets scopes s s' (sem k).2 (sem k).1.2 (sem k).1.1

/-- As `Simulates`, for code that fills the object at a place. -/
structure Fills (M : Setting) (targets : Option (Label × Label)) (scopes : Scopes) (p : Place)
    (s s' : Lowering.State) (k' : Counters) (fill : Int64 → Action Unit) : Prop where
  agrees : Agrees scopes k' s'
  grows : Extends id s s'
  meets : M.Hosts s' → ∀ ⦃st f m address⦄, At M scopes s st f m → Locates M s.temps p address f →
    Meets M targets s.temps f m st (Lands s' fun _ _ => True) (fill address st)

def RunsFilling (M : Setting) (targets : Option (Label × Label)) (scopes : Scopes) (p : Place)
    (code : Lower Unit) (sem : Resolve (Int64 → Action Unit)) : Prop :=
  ∀ ⦃s u s' k⦄, code s = .ok (u, s') → Agrees scopes k s →
    Fills M targets scopes p s s' (sem k).2 (sem k).1

section Composition

variable {M : Setting} {targets : Option (Label × Label)} {scopes scopes' : Scopes} {c : Context}
  {α β : Type} {s s' t : Lowering.State} {k k' : Counters} {R : α → Nat → β → Frame → Prop}

theorem Fits.within (h : Fits M targets c) (scopes : Scopes) : Fits M targets { c with scopes } :=
  ⟨h.global, h.text, h.call, h.rounds, h.inLoop⟩

theorem Fits.body (h : Fits M targets c) (scopes : Scopes) (stop next : Label) :
    Fits M (some (stop, next)) { c with scopes, inLoop := true } :=
  ⟨h.global, h.text, h.call, h.rounds, rfl⟩

theorem Runs.inside {code : Lower α} {sem : Resolve (Action β)}
    (h : Runs M targets scopes code sem R) : RunsInside M targets scopes code sem R :=
  fun _ _ _ _ hrun hk =>
    have hs := h hrun hk
    ⟨hs.agrees.toCounted, hs.grows.tail, hs.meets⟩

theorem Runs.ignored {code : Lower α} {sem : Resolve (Action β)}
    (h : Runs M targets scopes code sem R) :
    Runs M targets scopes (discard code) (do let x ← sem; return discard x) Silent :=
  (h.map (T := Silent) fun _ _ _ _ _ => trivial).of_eq rfl fun _ => rfl

theorem Runs.declaring {code : Lower Unit} {sem : Resolve (Action Unit)}
    (h : Runs M targets scopes code sem Silent) :
    RunsDeclaring M targets scopes code (do return (← sem, scopes)) := by
  intro s u s' k hrun hk
  have hs := h hrun hk
  refine ⟨hs.agrees, hs.grows.tail, fun hM st f m hat => ?_⟩
  exact (hs.meets hM hat).imp fun b st' g u hgo hq => ⟨hq.1, hat.held.goes hgo hs.grows.temps⟩

theorem RunsDeclaring.of_eq {code code' : Lower Unit} {sem sem' : Resolve (Action Unit × Scopes)}
    (h : RunsDeclaring M targets scopes code sem) (hcode : code' = code)
    (hsem : ∀ k, sem' k = sem k) : RunsDeclaring M targets scopes code' sem' := by
  intro s a s' k hrun hk
  rw [hcode] at hrun
  rw [hsem]
  exact h hrun hk

theorem RunsInside.of_eq {code code' : Lower α} {sem sem' : Resolve (Action β)}
    (h : RunsInside M targets scopes code sem R) (hcode : code' = code)
    (hsem : ∀ k, sem' k = sem k) : RunsInside M targets scopes code' sem' R := by
  intro s a s' k hrun hk
  rw [hcode] at hrun
  rw [hsem]
  exact h hrun hk

/-- What is bound inside is forgotten. -/
theorem runs_inScope {code : Lower α} {sem : Resolve (Action β)}
    (h : RunsInside M targets ([] :: scopes) code sem R) :
    Runs M targets scopes (Lowering.inScope code) sem R := by
  intro s a s' k hrun hk
  obtain ⟨t, hcode, rfl⟩ := Lowering.inScope_eq_ok.mp hrun
  have hs := h hcode hk.push
  refine ⟨⟨⟨hs.counted.locals, hs.counted.texts, hs.counted.below, hs.counted.nodup⟩, ?_⟩, ?_, ?_⟩
  · have hbindings := hk.bindings.mono (hs.grows.code.filterMap _)
    have hslots : t.slots.tail = s.slots := hs.grows.slots
    exact hslots ▸ hbindings
  · exact ⟨hs.grows.code, hs.grows.temps, hs.grows.labels, hs.grows.data, hs.grows.slots,
      hs.grows.texts⟩
  · intro hM st f m hat
    have hheld : Held M ([] :: scopes) s.temps st f := by
      intro scope hscope x hx
      rcases List.mem_cons.mp hscope with rfl | hscope
      · exact absurd hx List.not_mem_nil
      · exact hat.held scope hscope x hx
    exact hs.meets ⟨hM.sound, hM.code, hM.temps, hM.data⟩ ⟨⟨hat.toStands, hheld⟩, hat.pc⟩

/-- What follows a declaration sees what it declares. -/
theorem RunsDeclaring.andThen {code : Lower Unit} {next : Lower α}
    {sem : Resolve (Action Unit × Scopes)} {semn : Scopes → Resolve (Action β)}
    (h : RunsDeclaring M targets scopes code sem)
    (hnext : ∀ scopes', RunsInside M targets scopes' next (semn scopes') R) :
    RunsInside M targets scopes (do code; next) (do
      let x ← sem
      let y ← semn x.2
      return do
        x.1
        y) R := by
  intro s a s' k hrun hk
  obtain ⟨⟨⟩, t, hcode, hrun⟩ := bind_eq_ok.mp hrun
  have hs := h hcode hk
  have hs' := hnext _ hrun hs.agrees
  refine ⟨hs'.counted, hs.grows.trans hs'.grows, fun hM st f m hat => ?_⟩
  refine (hs.meets (hM.before hs'.grows) hat).bind hs.grows.temps fun _ st₁ g u hgo hq => ?_
  exact hs'.meets hM ⟨⟨hgo.stands, hq.2⟩, hq.1⟩

theorem RunsDeclaring.trans {code next : Lower Unit} {sem : Resolve (Action Unit × Scopes)}
    {semn : Scopes → Resolve (Action Unit × Scopes)}
    (h : RunsDeclaring M targets scopes code sem)
    (hnext : ∀ scopes', RunsDeclaring M targets scopes' next (semn scopes')) :
    RunsDeclaring M targets scopes (do code; next) (do
      let x ← sem
      let y ← semn x.2
      return (do x.1; y.1, y.2)) := by
  intro s a s' k hrun hk
  obtain ⟨⟨⟩, t, hcode, hrun⟩ := bind_eq_ok.mp hrun
  have hs := h hcode hk
  have hs' := hnext _ hrun hs.agrees
  refine ⟨hs'.agrees, hs.grows.trans hs'.grows, fun hM st f m hat => ?_⟩
  refine (hs.meets (hM.before hs'.grows) hat).bind hs.grows.temps fun _ st₁ g u hgo hq => ?_
  exact hs'.meets hM ⟨⟨hgo.stands, hq.2⟩, hq.1⟩

theorem RunsFilling.of_eq {p : Place} {code code' : Lower Unit}
    {sem sem' : Resolve (Int64 → Action Unit)} (h : RunsFilling M targets scopes p code sem)
    (hcode : code' = code) (hsem : ∀ k, sem' k = sem k) :
    RunsFilling M targets scopes p code' sem' := by
  intro s a s' k hrun hk
  rw [hcode] at hrun
  rw [hsem]
  exact h hrun hk

/-- Straight code. -/
theorem runsFilling_plain {p : Place} {code : Lower Unit} {fill : Int64 → Action Unit}
    (hplain : Plain code) (hgrows : Grows id code)
    (hmeets : ∀ ⦃s s' st f m address⦄, code s = .ok ((), s') → M.Hosts s' →
      At M scopes s st f m → Locates M s.temps p address f →
      Meets M targets s.temps f m st (Lands s' fun _ _ => True) (fill address st)) :
    RunsFilling M targets scopes p code (return fill) :=
  fun _ _ _ _ hrun hk => ⟨hplain.agrees hrun hk, Grows.extends_of hgrows hrun,
    fun hM _ _ _ _ hat hp => hmeets hrun hM hat hp⟩

/-- Straight code after the code for a value. -/
theorem Runs.filling {p : Place} {code : Lower α} {sem : Resolve (Action β)} {next : α → Lower Unit}
    {fill : Int64 → β → Action Unit} (h : Runs M targets scopes code sem R)
    (hplain : ∀ a, Plain (next a)) (hgrows : ∀ a, Grows id (next a))
    (hmeets : ∀ ⦃a b s s' st f m address⦄, next a s = .ok ((), s') → M.Hosts s' →
      At M scopes s st f m → Locates M s.temps p address f → R a s.temps b f →
      Meets M targets s.temps f m st (Lands s' fun _ _ => True) (fill address b st)) :
    RunsFilling M targets scopes p (code >>= next)
      (do let x ← sem; return fun address => do fill address (← x)) := by
  intro s u s' k hrun hk
  obtain ⟨a, t, hcode, hnext⟩ := bind_eq_ok.mp hrun
  have hs := h hcode hk
  have hgrow := Grows.extends_of (hgrows a) hnext
  refine ⟨(hplain a).agrees hnext hs.agrees, hs.grows.trans hgrow,
    fun hM st f m address hat hp => ?_⟩
  refine (hs.meets (hM.before hgrow) hat).seq hat hs.grows.temps fun b st₁ g u hat₁ hkept hb => ?_
  exact hmeets hnext hM hat₁ (hp.kept hkept hs.grows.temps) hb

/-- Two parts of an object are filled one after the other. -/
theorem RunsFilling.andThen {p q r : Place} {code next : Lower Unit} {d e : Int64 → Int64}
    {sem semn : Resolve (Int64 → Action Unit)} (h : RunsFilling M targets scopes q code sem)
    (h' : RunsFilling M targets scopes r next semn)
    (hq : ∀ n address g, Locates M n p address g → Locates M n q (d address) g)
    (hr : ∀ n address g, Locates M n p address g → Locates M n r (e address) g) :
    RunsFilling M targets scopes p (do code; next) (do
      let x ← sem
      let y ← semn
      return fun address => do
        x (d address)
        y (e address)) := by
  intro s u s' k hrun hk
  obtain ⟨⟨⟩, t, hcode, hnext⟩ := bind_eq_ok.mp hrun
  have hs := h hcode hk
  have hs' := h' hnext hs.agrees
  refine ⟨hs'.agrees, hs.grows.trans hs'.grows, fun hM st f m address hat hp => ?_⟩
  refine (hs.meets (hM.before hs'.grows) hat (hq _ _ _ hp)).seq hat hs.grows.temps
    fun _ st₁ g u hat₁ hkept _ => ?_
  exact hs'.meets hM hat₁ (hr _ _ _ (hp.kept hkept hs.grows.temps))

end Composition

section Trees

variable {M : Setting} {targets : Option (Label × Label)} {c : Context}

theorem runs_text (h : Fits M targets c) (text : String) :
    Runs M targets c.scopes (do return .value (.data (← Lowering.addText text)))
      (do let n ← Evaluation.newText; return return .value (c.text n)) (Denoting M) := by
  intro s a s' k hrun hk
  obtain ⟨l, t, htext, hrun⟩ := bind_eq_ok.mp hrun
  obtain ⟨rfl, rfl⟩ := pure_eq_ok.mp hrun
  obtain ⟨hk', hl, hmem⟩ := hk.addText htext
  refine ⟨hk', Grows.extends_of (.addText text) htext, fun hM st f m hat => ?_⟩
  have hlabel : Lowering.textLabel k.texts ∈ M.data.map (·.label) :=
    (hM.data.map _).subset (hl ▸ hmem)
  refine meets_pure hat.toStands ?_ ⟨?_, trivial⟩
  · cases htext
    exact hat.pc
  · rw [hl, h.text]
    simp only [Machine.value, hM.sound.texts _ hlabel]

theorem runs_named (h : Fits M targets c) (ty : TypeId) (name : String) :
    Runs M targets c.scopes (do return .place ⟨← Lowering.variableAddress name, 0, ty⟩)
      (return c.named ty name) (Denoting M) := by
  intro s a s' k hrun hk
  obtain ⟨v, t, hname, hrun⟩ := bind_eq_ok.mp hrun
  obtain ⟨rfl, rfl⟩ := pure_eq_ok.mp hrun
  exact ⟨(Plain.variableAddress name).agrees hname hk,
    Grows.extends_of (.variableAddress name) hname,
    fun hM st f m hat => meets_named h.global hname hM hk hat⟩

/-- A jump out of a loop. Outside of loops there is none. -/
theorem runs_leave (h : Fits M targets c) {exit : Exit} {target : Label × Label → Label}
    (hexit : exit = .broke ∧ target = Prod.fst ∨ exit = .continued ∧ target = Prod.snd) :
    Runs M targets c.scopes (Lowering.leave (targets.map target)) (return c.leave exit)
      (Silent (α := Unit) (β := Unit)) := by
  intro s a s' k hrun hk
  unfold Evaluation.Context.leave
  rw [h.inLoop]
  cases targets with
  | none =>
    obtain ⟨rfl, rfl⟩ := pure_eq_ok.mp hrun
    exact ⟨hk, .refl id s, fun _ st f m hat => meets_pure hat.toStands hat.pc trivial⟩
  | some l =>
    refine ⟨(Plain.emit rfl).agrees hrun hk, extends_emit hrun, fun hM st f m hat => ?_⟩
    have hjump := hM.emitted hrun hat.pc
    rcases hexit with ⟨rfl, rfl⟩ | ⟨rfl, rfl⟩
    · exact ⟨l, f, m, rfl, .refl hat.toStands _, hjump⟩
    · exact ⟨l, f, m, rfl, .refl hat.toStands _, hjump⟩

theorem runs_return {left : Lower Operand} {sem : Resolve (Action Int64)} {scopes : Scopes}
    (h : Runs M targets scopes left sem (Value M)) :
    Runs M targets scopes (do let v ← left; Lowering.emit (.ret (some v)))
      (do let v ← sem; return do throw (.returned (← v))) (Silent (α := Unit) (β := Unit)) := by
  refine h.andThen (T := Silent) (fun v => .emit rfl) (fun v => .emit _) ?_
  intro v w s a s' st f m hrun hM hat hv
  refine ⟨tick m, .done (hM.emitted hrun hat.pc) trivial ?_, hat.memory⟩
  simp only [next, Machine.step, Machine.value_goto, hv.value]

theorem runs_returnNothing {scopes : Scopes} :
    Runs M targets scopes (Lowering.emit (.ret none)) (return throw (.returned 0))
      (Silent (α := Unit) (β := Unit)) := by
  intro s a s' k hrun hk
  refine ⟨(Plain.emit rfl).agrees hrun hk, extends_emit hrun, fun hM st f m hat => ?_⟩
  exact ⟨tick m, .done (hM.emitted hrun hat.pc) trivial rfl, hat.memory⟩

theorem tests_condition {left : Lower Operand} {sem : Resolve (Action Int64)} {scopes : Scopes}
    (h : Runs M targets scopes left sem (Value M)) :
    Tests M targets scopes (fun stop => do Lowering.branchUnless (← left) stop)
      (do let v ← sem; return (· != 0) <$> v) := by
  intro stop s s' k hrun hk
  obtain ⟨v, t, hleft, hbranch⟩ := bind_eq_ok.mp hrun
  have hs := h hleft hk
  have hgrow := extends_emit hbranch
  refine ⟨(Plain.emit rfl).agrees hbranch hs.agrees, hs.grows.trans hgrow,
    fun hM st f m pos hat hpos => ?_⟩
  refine (hs.meets (hM.before hgrow) hat).seq hat hs.grows.temps fun b st₁ g u hat₁ _ hv => ?_
  have hgo := goes_branchUnless hat₁.toStands (hM.emitted hbranch hat₁.pc) hv.value hpos t.temps
  refine ⟨_, _, hgo, ?_⟩
  by_cases hb : b = 0
  · simp [hb, Frame.goto]
  · simp [hb, Frame.goto, hat₁.pc, size_emit hbranch]

/-- Storage for a local, and what its initializer puts there. -/
theorem runs_local {name : String} {ty : TypeId} (r : Registry) {scopes : Scopes}
    {fill : Temp → Lower Unit} {w : Scopes → Resolve (Int64 → Action Unit)}
    (hfill : ∀ slot scopes',
      RunsFilling M targets scopes' ⟨.temp slot, 0, ty⟩ (fill slot) (w scopes')) :
    RunsDeclaring M targets scopes (do
        let slot ← Lowering.allocate r ty
        Lowering.bind name slot
        fill slot)
      (do
        let j ← Evaluation.newLocal
        let fill ← w (scopes.declare name j)
        return (do fill (← Evaluation.reside j (r.sizeOf ty) (r.alignOf ty)),
          scopes.declare name j)) := by
  intro s a s' k hrun hk
  obtain ⟨slot, t, hallocate, hrun⟩ := bind_eq_ok.mp hrun
  obtain ⟨⟨⟩, t', hbind, hfills⟩ := bind_eq_ok.mp hrun
  obtain ⟨hk₁, hslot⟩ := hk.allocate hallocate
  have hk₂ := hk₁.bind hslot hbind
  have hs := hfill slot _ hfills hk₂
  have h₁ := Grows.extends_of (Lowering.grows_allocate r ty) hallocate
  have h₂ := Grows.bindName name slot _ _ _ hbind
  refine ⟨hs.agrees, h₁.tail.trans (h₂.trans hs.grows.tail), fun hM st f m hat => ?_⟩
  have hM' := hM.before hs.grows
  refine (meets_allocate hallocate (hM'.before h₂) hk hat).bind h₁.temps
    fun address st₁ g u hgo hres => ?_
  have hheld := (hat.held.goes hgo h₁.temps).declare name hres.slot hres.yields.below
    hres.home (Except.ok.inj hres.yields.value)
  have hat' : At M (scopes.declare name k.locals) t' st₁ g u := by
    cases hbind
    exact ⟨⟨hgo.stands, hheld⟩, hres.pc⟩
  have hp : Locates M t'.temps ⟨.temp slot, 0, ty⟩ address g :=
    ⟨address, ⟨hres.yields.value, hres.yields.below.mono h₂.temps⟩, Int64.add_zero _⟩
  refine ((hs.meets hM hat' hp).after (.refl hgo.stands _) h₂.temps).imp
    fun _ st₂ g₂ u₂ hgo₂ hq => ⟨hq.1, ?_⟩
  exact (hheld.goes hgo₂ (h₂.temps.trans hs.grows.temps))

theorem runsFilling_nothing {scopes : Scopes} {p : Place} :
    RunsFilling M targets scopes p (return ()) (return fun _ => return ()) := by
  refine runsFilling_plain (.pure ()) (.pure ()) fun s s' st f m address hrun hM hat hp => ?_
  obtain ⟨-, rfl⟩ := pure_eq_ok.mp hrun
  exact meets_pure hat.toStands hat.pc trivial

theorem runs_zero (r : Registry) {scopes : Scopes} (p : Place) :
    RunsFilling M targets scopes p (p.zero r) (return Evaluation.zero r p.ty) :=
  runsFilling_plain (Lowering.plain_zeroMoves p _) (Lowering.grows_zero r p)
    fun _ _ _ _ _ _ hrun hM hat hp => meets_zeroMoves hrun hM hat hp

/-- What an expression puts into an object. -/
theorem runs_initialValue (r : Registry) {scopes : Scopes} (p : Place) (e : Expr)
    {code : Lower Operand} {sem : Resolve (Action Int64)}
    (h : Runs M targets scopes code sem (Value M)) :
    RunsFilling M targets scopes p
      (match r.ty p.ty, e.kind with
        | .array _ length, .string text => p.storeBytes ((Bytes.ofText text).take length)
        | .struct _, _ => do
          let v ← code
          p.copy r ⟨v, 0, p.ty⟩
        | _, _ => do
          let v ← code
          let v ← Lowering.convert r v p.ty
          p.store r v)
      (match r.ty p.ty, e.kind with
        | .array _ length, .string text =>
          return fun address => Evaluation.storeBytes address ((Bytes.ofText text).take length)
        | .struct _, _ => do
          let v ← sem
          return fun address => do Evaluation.copy r p.ty address (← v)
        | _, _ => do
          let v ← sem
          return fun address => do
            Evaluation.store r p.ty address (← Evaluation.converted r p.ty v)) := by
  have hstruct : RunsFilling M targets scopes p (do let v ← code; p.copy r ⟨v, 0, p.ty⟩)
      (do let v ← sem; return fun address => do Evaluation.copy r p.ty address (← v)) := by
    refine h.filling
      (fun _ => Lowering.plain_copyMoves _ _ _) (fun _ => Lowering.grows_copy r _ _)
      fun v b s s' st f m address hrun hM hat hp hv => ?_
    have hsource := locates_of_yields hv 0 p.ty
    rw [Int64.add_zero] at hsource
    exact meets_copyMoves hrun hM hat hp hsource
  have hscalar : RunsFilling M targets scopes p (do
      let v ← code
      let v ← Lowering.convert r v p.ty
      p.store r v)
      (do
        let v ← sem
        return fun address => do
          Evaluation.store r p.ty address (← Evaluation.converted r p.ty v)) := by
    refine ((runs_converted r p.ty h).filling
     
      (fun v => Lowering.plain_store r p v) (fun v => Lowering.grows_store r p v)
      fun v b s s' st f m address hrun hM hat hp hv => meets_store hrun hM hat hp hv).of_eq
        (by simp only [bind_assoc]) fun _ => rfl
  cases r.ty p.ty with
  | array element length =>
    cases e.kind with
    | string text =>
      exact runsFilling_plain (Lowering.plain_storeBytes p _) (Lowering.grows_storeBytes p _)
        fun s s' st f m address hrun hM hat hp => meets_storeBytes hrun hM hat hp
    | _ => exact hscalar
  | struct s => exact hstruct
  | _ => exact hscalar

end Trees

end MiniC.Simulation
