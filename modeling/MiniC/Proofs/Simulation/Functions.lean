import MiniC.Proofs.Lowering.Functions
import MiniC.Proofs.Simulation.Trees
/-!
The code of functions. Main statements: a routine does with its arguments what the procedure of its
function does, and the functions of a unit are its procedures one by one.
-/
namespace MiniC.Simulation

open Code (Function Inst Label Operand Param Temp)
open Evaluation (Action Context Counters Exit Procedure Resolve Scopes Store)
open Lowering (Agrees Extends Gives Grows Plain allocations bind_eq_ok emit_eq_ok
  lift_eq_ok need_eq_ok pure_eq_ok)
open Machine (Exceeds Fault Finishes Frame Kept Routine anything next tick)
open Syntax

/-- The run of a routine, when the evaluation of its body ends in that way. Past the end of the body
zero is returned. -/
def Ended (M : Setting) (f : Frame) (m : Machine.State) : EStateM.Result Exit Store Unit → Prop
  | .ok () st' => Ends M f m (.ok 0) st'
  | .error (.fault e) st' => Ends M f m (.error e) st'
  | .error (.returned v) st' => Ends M f m (.ok v) st'
  | .error .unfinished _ => Exceeds M.program M.limit M.routine f m
  | .error _ _ => False

/-- The routine does with its arguments what the procedure does. -/
def Performs (M : Setting) (q : Procedure) : Prop :=
  ∀ ⦃args : List Int64⦄ ⦃st : Store⦄ ⦃m : Machine.State⦄, args.length = q.arity → m.memory = st.memory → m.stack = st.stack →
    m.depth = M.depth → M.limit ≤ m.steps + M.rounds →
    Ended M (Frame.enter M.routine args) m (q.body args { st with homes := fun _ => none })

section Functions

variable {M : Setting} {c : Context} {r : Registry} {scopes : Scopes} {s s' : Lowering.State}
  {k : Counters} {f : Frame} {m : Machine.State} {st : Store}

/-! Parameters. -/

/-- An argument is kept in storage of its own. -/
theorem runs_receive {targets : Option (Label × Label)} {index : Nat} {p : Param} {u : Unit}
    (hs : Lowering.receive r index p s = .ok (u, s')) (hk : Agrees scopes k s) :
    Agrees (scopes.declare p.name k.locals) { k with locals := k.locals + 1 } s' ∧
      Extends List.tail s s' ∧
      (M.Hosts s' → ∀ ⦃st f m arg⦄, At M scopes s st f m → f.args[index]? = some arg →
        Meets M targets s.temps f m st
          (fun _ st' g => g.pc = s'.code.size ∧
            Held M (scopes.declare p.name k.locals) s'.temps st' g)
          (Evaluation.receive r p.ty k.locals arg st)) := by
  obtain ⟨incoming, s₁, hparam, hs⟩ := bind_eq_ok.mp hs
  obtain ⟨slot, s₂, hallocate, hs⟩ := bind_eq_ok.mp hs
  obtain ⟨s₃, hput, hbind⟩ : ∃ s₃, (if r.isStruct p.ty
      then Lowering.Place.copy r ⟨.temp slot, 0, p.ty⟩ ⟨incoming, 0, p.ty⟩
      else Lowering.Place.store r ⟨.temp slot, 0, p.ty⟩ incoming) s₂ = .ok ((), s₃) ∧
        Lowering.bind p.name slot s₃ = .ok (u, s') := by
    by_cases hstruct : r.isStruct p.ty
    · simp only [hstruct, if_true] at hs ⊢
      obtain ⟨⟨⟩, s₃, hput, hbind⟩ := bind_eq_ok.mp hs
      exact ⟨s₃, hput, hbind⟩
    · simp only [hstruct, Bool.false_eq_true, if_false] at hs ⊢
      obtain ⟨⟨⟩, s₃, hput, hbind⟩ := bind_eq_ok.mp hs
      exact ⟨s₃, hput, hbind⟩
  have hplain : Plain (if r.isStruct p.ty
      then Lowering.Place.copy r ⟨.temp slot, 0, p.ty⟩ ⟨incoming, 0, p.ty⟩
      else Lowering.Place.store r ⟨.temp slot, 0, p.ty⟩ incoming) :=
    .ite (Lowering.plain_copyMoves _ _ _) (Lowering.plain_store r _ _)
  have hk₁ := (Plain.define fun _ => rfl).agrees hparam hk
  obtain ⟨hk₂, hslot₂⟩ := hk₁.allocate hallocate
  have hk₃ := hplain.agrees hput hk₂
  have h₁ := Grows.extends_of (.define _) hparam
  have h₂ := Grows.extends_of (Lowering.grows_allocate r p.ty) hallocate
  have h₃ := Grows.extends_of (.ite (Lowering.grows_copy r _ _) (Lowering.grows_store r _ _)) hput
  have h₄ := Grows.bindName p.name slot _ _ _ hbind
  have hslot₃ := Lowering.getElem?_of_prefix (h₃.code.filterMap _) hslot₂
  refine ⟨hk₃.bind hslot₃ hbind, h₁.tail.trans (h₂.tail.trans (h₃.tail.trans h₄)),
    fun hM st f m arg hat harg => ?_⟩
  have hM₃ := hM.before h₄
  have hM₂ := hM₃.before h₃
  have hM₁ := hM₂.before h₂
  have hincoming : Gives M.program M.routine s s₁ f m incoming (.ok arg) := by
    refine Lowering.gives_define hparam (hM₁.straight hat.toStands) hat.pc ?_
    simp only [next, Machine.step, Frame.goto, harg]
  obtain ⟨g₁, u₁, hgo₁, hpc₁, hv⟩ := meets_lift targets hat.toStands hincoming
  have hat₁ := hat.goes hgo₁ h₁.temps hpc₁
  refine Meets.after ?_ hgo₁ h₁.temps
  refine (meets_allocate hallocate hM₂ hk₁ hat₁).bind h₂.temps fun address st₂ g₂ u₂ hgo₂ hres => ?_
  have hat₂ := hat₁.goes hgo₂ h₂.temps hres.pc
  have htarget : Locates M s₂.temps ⟨.temp slot, 0, p.ty⟩ address g₂ :=
    ⟨address, hres.yields, Int64.add_zero _⟩
  have hv₂ := hv.kept hgo₂.kept h₂.temps
  have hput' : Meets M targets s₂.temps g₂ u₂ st₂ (Lands s₃ fun _ _ => True)
      ((if r.isStruct p.ty then Evaluation.copy r p.ty address arg
        else Evaluation.store r p.ty address arg : Action Unit) st₂) := by
    by_cases hstruct : r.isStruct p.ty
    · simp only [hstruct, if_true] at hput ⊢
      have hsource := locates_of_yields hv₂ 0 p.ty
      rw [Int64.add_zero] at hsource
      exact meets_copyMoves hput hM₃ hat₂ htarget hsource
    · simp only [hstruct, Bool.false_eq_true, if_false] at hput ⊢
      exact meets_store hput hM₃ hat₂ htarget hv₂
  refine hput'.imp fun _ st₃ g₃ u₃ hgo₃ hq => ?_
  have hheld := ((hat₂.held.goes hgo₃ (h₃.trans (.refl id s₃)).temps).declare p.name
    hres.slot (Nat.lt_of_lt_of_le hres.yields.below h₃.temps) (hgo₃.grown _ _ hres.home)
    ((hgo₃.kept.temps _ hres.yields.below).trans (Except.ok.inj hres.yields.value)))
  refine ⟨?_, ?_⟩
  · cases hbind
    exact hq.1
  · cases hbind
    exact hheld

theorem runs_receiveAll {targets : Option (Label × Label)} {ps : List ParamDecl} {qs : List Param}
    {index : Nat} {u : Unit} (hqs : Lowering.params ps = .ok qs)
    (hs : Lowering.receiveAll c.registry index qs s = .ok (u, s')) (hk : Agrees c.scopes k s) :
    Agrees (Evaluation.receiveAll c ps k).1.2 (Evaluation.receiveAll c ps k).2 s' ∧
      Extends List.tail s s' ∧
      (M.Hosts s' → ∀ ⦃st f m⦄, At M c.scopes s st f m → f.args.length = index + ps.length →
        Meets M targets s.temps f m st
          (fun _ st' g => g.pc = s'.code.size ∧
            Held M (Evaluation.receiveAll c ps k).1.2 s'.temps st' g)
          ((Evaluation.receiveAll c ps k).1.1 (f.args.drop index) st)) := by
  induction ps generalizing qs index s k c with
  | nil =>
    cases hqs
    obtain ⟨-, rfl⟩ := pure_eq_ok.mp hs
    exact ⟨hk, .refl _ s, fun _ st f m hat _ => ⟨f, m, .refl hat.toStands _, hat.pc, hat.held⟩⟩
  | cons p ps ih =>
    obtain ⟨ty, rest, hty, hrest, rfl⟩ : ∃ ty rest, p.resolved = some ty ∧
        Lowering.params ps = .ok rest ∧ qs = ⟨p.name.getD "", ty⟩ :: rest := by
      rw [Lowering.params] at hqs
      cases hresolved : p.resolved with
      | none => rw [hresolved] at hqs; cases hqs
      | some ty =>
        simp only [hresolved] at hqs
        cases hrest : Lowering.params ps with
        | error e => rw [hrest] at hqs; cases hqs
        | ok rest =>
          rw [hrest] at hqs
          cases hqs
          exact ⟨ty, rest, rfl, rfl, rfl⟩
    obtain ⟨⟨⟩, t, hreceive, hs⟩ := bind_eq_ok.mp hs
    obtain ⟨hk₁, h₁, hmeets⟩ := runs_receive (M := M) hreceive hk
    obtain ⟨hk₂, h₂, hmeets'⟩ := ih (c := { c with
      scopes := c.scopes.declare (p.name.getD "") k.locals }) hrest hs hk₁
    refine ⟨hk₂, h₁.trans h₂, fun hM st f m hat hlength => ?_⟩
    have hindex : index < f.args.length := by
      rw [hlength, List.length_cons]
      omega
    have hdrop := List.drop_eq_getElem_cons hindex
    have hmeets := hmeets (hM.before h₂) hat (List.getElem?_eq_getElem hindex)
    show Meets M targets s.temps f m st _ ((do
      let arg ← Evaluation.need (f.args.drop index).head?
      let ty ← Evaluation.need p.resolved
      Evaluation.receive c.registry ty k.locals arg
      _ : Action Unit) st)
    rw [hdrop, hty]
    refine hmeets.bind h₁.temps fun _ st₁ g u hgo hq => ?_
    have hat₁ : At M _ t st₁ g u := ⟨⟨hgo.stands, hq.2⟩, hq.1⟩
    have hargs := hgo.kept.args
    have hlength₁ : g.args.length = index + 1 + ps.length := by
      rw [hargs, hlength, List.length_cons]
      omega
    have hrest' := hmeets' hM hat₁ hlength₁
    rw [hargs] at hrest'
    exact hrest'

/-! Bodies. -/

theorem Fits.routine (h : Fits M none c) (r : Routine) : Fits { M with routine := r } none c :=
  ⟨h.global, h.text, h.call, h.rounds, h.inLoop⟩

theorem Meets.ended {n pc : Nat} {o : Option Operand}
    {x : EStateM.Result Exit Store Unit}
    (hx : Meets M none n f m st (fun _ _ g => g.pc = pc) x)
    (hat : M.routine.body[pc]? = some (.ret o)) (ho : ∀ v ∈ o, v = .const 0) : Ended M f m x := by
  rcases x with ⟨⟨⟩, st'⟩ | ⟨e, st'⟩
  · obtain ⟨g, u, hgo, rfl⟩ := hx
    refine Ends.before (g := g) ⟨tick u, .done hat trivial ?_, hgo.stands.memory⟩ hgo.leads
    cases o with
    | none => rfl
    | some v =>
      rw [ho v rfl]
      rfl
  · cases e with
    | fault e => exact hx
    | returned v => exact hx
    | broke =>
      obtain ⟨l, g, u, hl, -⟩ := hx
      cases hl
    | continued =>
      obtain ⟨l, g, u, hl, -⟩ := hx
      cases hl
    | unfinished => exact hx
    | stuck => exact hx

theorem agrees_enter {n : Nat} (h : s.data.size = n) :
    Agrees [[]] ⟨0, n⟩ { s with code := #[], temps := 0, slots := [[]] } where
  locals := rfl
  texts := h
  below _ ht := absurd ht List.not_mem_nil
  nodup := List.nodup_nil
  bindings := .cons .nil .nil

theorem at_enter (args : List Int64) (hmemory : m.memory = st.memory) (hstack : m.stack = st.stack)
    (hdepth : m.depth = M.depth) (hlimit : M.limit ≤ m.steps + M.rounds) (s : Lowering.State) :
    At M [[]] { s with code := #[], temps := 0, slots := [[]] } { st with homes := fun _ => none }
      (Frame.enter M.routine args) m where
  memory := hmemory
  stack := hstack
  depth := hdepth
  temps := Array.size_replicate
  slots := Array.size_replicate
  homes j t hj := by
    simp only [Frame.enter, Array.getD_eq_getD_getElem?, Array.getElem?_replicate]
    split <;> rfl
  steps := hlimit
  held scope hscope x hx := by
    rw [List.mem_singleton.mp hscope] at hx
    exact absurd hx List.not_mem_nil
  pc := rfl

/-- What the code of a function is, and what it does where it is the body of the routine. -/
theorem runs_function (h : Fits M none c) {fn : FuncDecl} {body : Block} {g : Function}
    (hs : Lowering.function c.registry fn body s = .ok (g, s')) (hk : s.data.size = k.texts) :
    s'.data.size = (Evaluation.procedure c fn body k).2.texts ∧ s.data.toList <+: s'.data.toList ∧
      (allocations g.body).Nodup ∧
      (M.routine.body.toList = g.body → M.routine.temps = g.temps → M.Sound →
        s'.data.toList <+: M.data → Performs M (Evaluation.procedure c fn body k).1) := by
  obtain ⟨returns, s₁, hreturns, hs⟩ := bind_eq_ok.mp hs
  obtain ⟨qs, s₂, hparams, hs⟩ := bind_eq_ok.mp hs
  obtain ⟨⟨⟩, s₃, henter, hs⟩ := bind_eq_ok.mp hs
  obtain ⟨⟨⟩, s₄, hreceive, hs⟩ := bind_eq_ok.mp hs
  obtain ⟨⟨⟩, s₅, hitems, hs⟩ := bind_eq_ok.mp hs
  obtain ⟨⟨⟩, s₆, hret, hs⟩ := bind_eq_ok.mp hs
  obtain ⟨s₇, _, hget, hs⟩ := bind_eq_ok.mp hs
  obtain ⟨rfl, rfl⟩ := pure_eq_ok.mp hs
  cases hget
  cases henter
  obtain ⟨hresolved, rfl⟩ := need_eq_ok.mp hreturns
  obtain ⟨hqs, rfl⟩ := lift_eq_ok.mp hparams
  obtain ⟨hk₄, h₄, hmeets₄⟩ := runs_receiveAll (M := M)
    (c := { c with scopes := [[]] }) hqs hreceive (agrees_enter hk)
  have hfits (scopes : Scopes) : Fits M none { c with returns, scopes } :=
    ⟨h.global, h.text, h.call, h.rounds, h.inLoop⟩
  have hs₅ := runs_blockItems (hfits _) body.items hitems hk₄
  have h₆ := extends_emit hret
  have hprocedure : Evaluation.procedure c fn body k =
      let x := Evaluation.receiveAll { c with scopes := [[]] } fn.params ⟨0, k.texts⟩
      let y := Evaluation.blockItems { c with returns, scopes := x.1.2 } body.items x.2
      (⟨fn.name, fn.params.length, fun args => do x.1.1 args; y.1⟩, y.2) := by
    unfold Evaluation.procedure
    rw [hresolved]
    rfl
  rw [hprocedure]
  refine ⟨?_, (h₄.trans (hs₅.grows.trans h₆.tail)).data,
    ?_, fun hbody htemps hsound htexts => ?_⟩
  · obtain rfl := emit_eq_ok.mp hret
    exact hs₅.counted.texts
  · have hcode : allocations s₆.code.toList = allocations s₅.code.toList :=
      (Plain.emit rfl _ _ _ hret).2.2.2
    exact hcode ▸ hs₅.counted.nodup
  · intro args st m hlength hmemory hstack hdepth hlimit
    have hM : M.Hosts s₆ := ⟨hsound, hbody ▸ List.prefix_rfl, htemps.ge, htexts⟩
    have hM₅ := hM.before h₆
    have hat := at_enter args hmemory hstack hdepth hlimit s₂
    have hbody := (hmeets₄ (hM₅.before hs₅.grows) hat
      (hlength.trans (Nat.zero_add _).symm)).bind h₄.temps
      fun _ st₁ g u hgo hq => hs₅.meets hM₅ ⟨⟨hgo.stands, hq.2⟩, hq.1⟩
    refine Meets.ended (hbody.imp fun _ _ _ _ _ hq => hq.1) (hM.at_push (code_emit hret)) ?_
    intro v hv
    unfold Lowering.fallthrough at hv
    split at hv
    · cases hv
    · cases hv
      rfl

/-- A function has the name of the procedure, and takes as many arguments. -/
structure Signed (g : Function) (q : Procedure) : Prop where
  name : g.name = q.name
  arity : g.params.length = q.arity

theorem signed_function (c : Context) {fn : FuncDecl} {body : Block} {g : Function}
    (hs : Lowering.function r fn body s = .ok (g, s')) (k : Counters) :
    Signed g (Evaluation.procedure c fn body k).1 := by
  obtain ⟨returns, s₁, -, hs⟩ := bind_eq_ok.mp hs
  obtain ⟨qs, s₂, hparams, hs⟩ := bind_eq_ok.mp hs
  obtain ⟨⟨⟩, s₃, -, hs⟩ := bind_eq_ok.mp hs
  obtain ⟨⟨⟩, s₄, -, hs⟩ := bind_eq_ok.mp hs
  obtain ⟨⟨⟩, s₅, -, hs⟩ := bind_eq_ok.mp hs
  obtain ⟨⟨⟩, s₆, -, hs⟩ := bind_eq_ok.mp hs
  obtain ⟨s₇, s₈, -, hs⟩ := bind_eq_ok.mp hs
  obtain ⟨rfl, -⟩ := pure_eq_ok.mp hs
  have hnames := Lowering.params_eq_ok (lift_eq_ok.mp hparams).1
  have hlength : qs.length = fn.params.length := by simpa using congrArg List.length hnames
  exact ⟨rfl, hlength⟩

/-! Units. -/

/-- Wherever the function is loaded, it does what the procedure does. -/
structure Implements (M : Setting) (data : List Code.Datum) (g : Function) (q : Procedure) : Prop
    extends Signed g q where
  slots : (allocations g.body).Nodup
  performs : ∀ r : Routine, r.body.toList = g.body → r.temps = g.temps →
    { M with routine := r }.Sound → data <+: M.data → Performs { M with routine := r } q

theorem Implements.mono {data data' : List Code.Datum} {g : Function} {q : Procedure}
    (h : Implements M data g q) (hdata : data <+: data') : Implements M data' g q :=
  ⟨h.toSigned, h.slots, fun r hbody htemps hsound hdata' =>
    h.performs r hbody htemps hsound (hdata.trans hdata')⟩

theorem runs_topDecls (h : Fits M none c) {ds : List TopDecl} {fs : List Function}
    {gs : List Code.Global} (hs : Lowering.topDecls c.registry ds s = .ok ((fs, gs), s'))
    (hk : s.data.size = k.texts) :
    s'.data.size = (Evaluation.procedures c ds k).2.texts ∧ s.data.toList <+: s'.data.toList ∧
      List.Forall₂ (Implements M s'.data.toList) fs (Evaluation.procedures c ds k).1 := by
  induction ds generalizing s fs gs k with
  | nil =>
    rw [Lowering.topDecls] at hs
    obtain ⟨heq, rfl⟩ := pure_eq_ok.mp hs
    cases heq
    exact ⟨hk, List.prefix_rfl, .nil⟩
  | cons d ds ih =>
    cases d with
    | declaration d =>
      rw [Lowering.topDecls] at hs
      obtain ⟨here, s₁, hhere, hs₁⟩ := bind_eq_ok.mp hs
      obtain ⟨-, rfl⟩ := lift_eq_ok.mp hhere
      obtain ⟨⟨fs', later⟩, s₂, hlater, hs₂⟩ := bind_eq_ok.mp hs₁
      obtain ⟨heq, rfl⟩ := pure_eq_ok.mp hs₂
      cases heq
      exact ih hlater hk
    | function fn =>
      rw [Lowering.topDecls] at hs
      cases hbody : fn.body with
      | none =>
        simp only [hbody] at hs
        simp only [Evaluation.procedures, hbody]
        exact ih hs hk
      | some body =>
        simp only [hbody] at hs
        simp only [Evaluation.procedures, hbody]
        obtain ⟨here, s₁, hhere, hs⟩ := bind_eq_ok.mp hs
        obtain ⟨⟨fs', later⟩, s₂, hlater, hs⟩ := bind_eq_ok.mp hs
        obtain ⟨heq, rfl⟩ := pure_eq_ok.mp hs
        cases heq
        obtain ⟨hk₁, hdata, hslots, -⟩ := runs_function h hhere hk
        obtain ⟨hk₂, hdata', hrest⟩ := ih hlater hk₁
        have himplements : Implements M s₁.data.toList here (Evaluation.procedure c fn body k).1 :=
          ⟨signed_function c hhere k, hslots, fun r hbody htemps hsound hdata =>
            (runs_function (h.routine r) hhere hk).2.2.2 hbody htemps hsound hdata⟩
        exact ⟨hk₂, hdata.trans hdata', .cons (himplements.mono hdata') hrest⟩

theorem signed_topDecls (c : Context) {ds : List TopDecl} {fs : List Function}
    {gs : List Code.Global} (hs : Lowering.topDecls r ds s = .ok ((fs, gs), s')) (k : Counters) :
    List.Forall₂ Signed fs (Evaluation.procedures c ds k).1 := by
  induction ds generalizing s fs gs k with
  | nil =>
    rw [Lowering.topDecls] at hs
    obtain ⟨heq, rfl⟩ := pure_eq_ok.mp hs
    cases heq
    exact .nil
  | cons d ds ih =>
    cases d with
    | declaration d =>
      rw [Lowering.topDecls] at hs
      obtain ⟨here, s₁, hhere, hs₁⟩ := bind_eq_ok.mp hs
      obtain ⟨⟨fs', later⟩, s₂, hlater, hs₂⟩ := bind_eq_ok.mp hs₁
      obtain ⟨heq, rfl⟩ := pure_eq_ok.mp hs₂
      cases heq
      exact ih hlater k
    | function fn =>
      rw [Lowering.topDecls] at hs
      cases hbody : fn.body with
      | none =>
        simp only [hbody] at hs
        simp only [Evaluation.procedures, hbody]
        exact ih hs k
      | some body =>
        simp only [hbody] at hs
        simp only [Evaluation.procedures, hbody]
        obtain ⟨here, s₁, hhere, hs⟩ := bind_eq_ok.mp hs
        obtain ⟨⟨fs', later⟩, s₂, hlater, hs⟩ := bind_eq_ok.mp hs
        obtain ⟨heq, rfl⟩ := pure_eq_ok.mp hs
        cases heq
        exact .cons (signed_function c hhere k) (ih hlater _)

end Functions

end MiniC.Simulation
