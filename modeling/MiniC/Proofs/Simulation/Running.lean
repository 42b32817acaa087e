import MiniC.Proofs.Evaluation.Tree
import MiniC.Proofs.Lowering.Storage
import MiniC.Proofs.Lowering.Straight
/-!
Code that does what a tree means. The frame of a routine stands for the store of an activation: the
slots of its allocations are the homes of the locals. `Meets` says, for every way in which an action
can end, what the machine does from a given point. Main statement: what is met one after the other is
met as a whole.
-/
namespace MiniC.Simulation

open Code (Inst Label Operand Temp)
open Evaluation (Action Counters Exit Resolve Scopes Store)
open Lowering (Agrees Extends Gives Slots allocations)
open Machine (Exceeds Fault Finishes Frame Kept Leads Program Reaches Routine anything next tick)

/-- A routine that runs at some depth of calls. The limit on steps is counted so that so many rounds
of a loop exceed it. -/
structure Setting where
  program : Program
  routine : Routine
  depth : Nat
  limit : Nat
  rounds : Nat
  /-- The addresses of the texts. -/
  text : Nat → Int64
  /-- The data of the unit. -/
  data : List Code.Datum

namespace Setting

def slots (M : Setting) : List Temp := allocations M.routine.body.toList

/-- Labels and allocations of the routine are told apart, and texts lie where they are said to. -/
structure Sound (M : Setting) : Prop where
  labels : ∀ pc l, M.routine.body[pc]? = some (.label l) → Machine.position M.routine l = .ok pc
  slots : M.slots.Nodup
  texts : ∀ n, Lowering.textLabel n ∈ M.data.map (·.label) →
    M.program.symbols[Lowering.textLabel n]? = some (M.text n)

/-- The code up to `s` is the beginning of the routine. -/
structure Hosts (M : Setting) (s : Lowering.State) : Prop where
  sound : M.Sound
  code : s.code.toList <+: M.routine.body.toList
  temps : s.temps ≤ M.routine.temps
  data : s.data.toList <+: M.data

end Setting

/-- The machine stands for the store. -/
structure Stands (M : Setting) (st : Store) (f : Frame) (m : Machine.State) : Prop where
  memory : m.memory = st.memory
  stack : m.stack = st.stack
  depth : m.depth = M.depth
  temps : f.temps.size = M.routine.temps
  slots : f.slots.size = M.routine.temps
  homes : ∀ j t, M.slots[j]? = some t → f.slots.getD t none = st.homes j
  steps : M.limit ≤ m.steps + M.rounds

/-- The locals in scope have homes, and the code has their addresses in temporaries below `n`. -/
def Held (M : Setting) (scopes : Scopes) (n : Nat) (st : Store) (f : Frame) : Prop :=
  ∀ scope ∈ scopes, ∀ x ∈ scope, ∃ t address, M.slots[x.2]? = some t ∧ t < n ∧
    st.homes x.2 = some address ∧ f.temps.getD t 0 = address

/-- Homes are given once. -/
def Grown (st st' : Store) : Prop := ∀ j address, st.homes j = some address → st'.homes j = some address

/-- From one point to another, without a change of the temporaries below `n`. -/
structure Goes (M : Setting) (n : Nat) (f : Frame) (m : Machine.State) (st : Store) (g : Frame)
    (u : Machine.State) (st' : Store) : Prop where
  leads : Leads M.program M.limit M.routine f m g u
  kept : Kept n f g
  stands : Stands M st' g u
  grown : Grown st st'

/-- The run ends, and leaves that memory. -/
def Ends (M : Setting) (f : Frame) (m : Machine.State) (result : Except Fault Int64) (st : Store) :
    Prop :=
  ∃ u, Finishes M.program anything M.routine f m result u ∧ u.memory = st.memory

/-- What the machine does from a point, when an action ends in that way. A break or continue gets to
a jump to its target. -/
def Meets {β : Type} (M : Setting) (targets : Option (Label × Label)) (n : Nat) (f : Frame)
    (m : Machine.State) (st : Store) (Q : β → Store → Frame → Prop) :
    EStateM.Result Exit Store β → Prop
  | .ok b st' => ∃ g u, Goes M n f m st g u st' ∧ Q b st' g
  | .error (.fault e) st' => Ends M f m (.error e) st'
  | .error (.returned v) st' => Ends M f m (.ok v) st'
  | .error .broke st' => ∃ l g u, targets = some l ∧ Goes M n f m st g u st' ∧
      M.routine.body[g.pc]? = some (.jump l.1)
  | .error .continued st' => ∃ l g u, targets = some l ∧ Goes M n f m st g u st' ∧
      M.routine.body[g.pc]? = some (.jump l.2)
  | .error .unfinished _ => Exceeds M.program M.limit M.routine f m
  | .error .stuck _ => False

/-- The machine stands for the store, with the locals in scope. -/
structure Within (M : Setting) (scopes : Scopes) (n : Nat) (st : Store) (f : Frame)
    (m : Machine.State) : Prop extends Stands M st f m where
  held : Held M scopes n st f

/-- The machine is at the end of the code of `s`. -/
structure At (M : Setting) (scopes : Scopes) (s : Lowering.State) (st : Store) (f : Frame)
    (m : Machine.State) : Prop extends Within M scopes s.temps st f m where
  pc : f.pc = s.code.size

/-- The end of the code of `s`. -/
def Lands {β : Type} (s : Lowering.State) (R : β → Frame → Prop) (b : β) (_ : Store) (g : Frame) :
    Prop :=
  g.pc = s.code.size ∧ R b g

/-- An operand holds a value, and no temporary from `n` on is part of it. -/
structure Yields (M : Setting) (n : Nat) (v : Operand) (w : Int64) (g : Frame) : Prop where
  value : Machine.value M.program g v = .ok w
  below : v.Below n

section Points

variable {β γ : Type} {M : Setting} {targets : Option (Label × Label)} {scopes : Scopes}
  {n n' : Nat} {s s' t : Lowering.State} {st st' st'' : Store} {f g h : Frame}
  {m u w : Machine.State} {Q : β → Store → Frame → Prop} {Q' : γ → Store → Frame → Prop}
  {x : EStateM.Result Exit Store β}

theorem Setting.Hosts.before {view : Slots → Slots} (hM : M.Hosts s') (hs : Extends view s s') :
    M.Hosts s where
  sound := hM.sound
  code := hs.code.trans hM.code
  temps := Nat.le_trans hs.temps hM.temps
  data := hs.data.trans hM.data

theorem Setting.Hosts.straight (hM : M.Hosts s) (hst : Stands M st f m) :
    Lowering.Hosts M.routine f s :=
  ⟨hM.code, hst.temps ▸ hM.temps⟩

theorem Setting.Hosts.slots (hM : M.Hosts s) : allocations s.code.toList <+: M.slots :=
  hM.code.filterMap _

theorem Grown.refl (st : Store) : Grown st st := fun _ _ h => h

theorem Grown.trans (h : Grown st st') (k : Grown st' st'') : Grown st st'' :=
  fun j address hj => k j address (h j address hj)

theorem Goes.refl (hst : Stands M st f m) (n : Nat) : Goes M n f m st f m st :=
  ⟨.refl _ _ _ _ _, .refl n f, hst, .refl st⟩

theorem Goes.trans (hfg : Goes M n f m st g u st') (hgh : Goes M n' g u st' h w st'')
    (hn : n ≤ n') : Goes M n f m st h w st'' :=
  ⟨hfg.leads.trans hgh.leads, hfg.kept.trans hgh.kept hn, hgh.stands, hfg.grown.trans hgh.grown⟩

theorem Goes.mono (hfg : Goes M n' f m st g u st') (hn : n ≤ n') : Goes M n f m st g u st' :=
  { hfg with kept := hfg.kept.mono hn }

theorem Ends.before {result : Except Fault Int64} (h : Ends M g u result st')
    (hfg : Leads M.program M.limit M.routine f m g u) : Ends M f m result st' := by
  obtain ⟨w, hfinishes, hmemory⟩ := h
  exact ⟨w, hfg.finishes hfinishes, hmemory⟩

theorem Held.goes (h : Held M scopes n st f) (hfg : Goes M n f m st g u st') (hn : n ≤ n') :
    Held M scopes n' st' g := by
  intro scope hscope x hx
  obtain ⟨t, address, hslot, ht, hhome, htemp⟩ := h scope hscope x hx
  refine ⟨t, address, hslot, Nat.lt_of_lt_of_le ht hn, hfg.grown _ _ hhome, ?_⟩
  rw [hfg.kept.temps t ht]
  exact htemp

theorem Yields.kept {v : Operand} {y : Int64} (h : Yields M n v y f) (hfg : Kept n f g)
    (hn : n ≤ n') : Yields M n' v y g where
  value := (Machine.value_kept hfg h.below).trans h.value
  below := h.below.mono hn

theorem yields_const (M : Setting) (n : Nat) (k : Int64) (f : Frame) : Yields M n (.const k) k f :=
  ⟨rfl, trivial⟩

theorem Within.goes (h : Within M scopes n st f m) (hfg : Goes M n f m st g u st') :
    Within M scopes n st' g u :=
  ⟨hfg.stands, h.held.goes hfg (Nat.le_refl _)⟩

theorem Within.at_end (h : Within M scopes n st f m) (hle : n ≤ s.temps) (hpc : f.pc = s.code.size) :
    At M scopes s st f m :=
  ⟨⟨h.toStands, h.held.goes (.refl h.toStands n) hle⟩, hpc⟩

theorem At.goes (hat : At M scopes s st f m) (hfg : Goes M s.temps f m st g u st')
    (hle : s.temps ≤ t.temps) (hpc : g.pc = t.code.size) : At M scopes t st' g u :=
  (hat.toWithin.goes hfg).at_end hle hpc

/-- What changes neither slots nor memory nor stack stands for the same store. -/
theorem Stands.still (hst : Stands M st f m) (hslots : g.slots = f.slots)
    (htemps : g.temps.size = f.temps.size) (hmemory : u.memory = m.memory)
    (hstack : u.stack = m.stack) (hdepth : u.depth = m.depth) (hsteps : m.steps ≤ u.steps) :
    Stands M st g u where
  memory := hmemory.trans hst.memory
  stack := hstack.trans hst.stack
  depth := hdepth.trans hst.depth
  temps := htemps.trans hst.temps
  slots := hslots ▸ hst.slots
  homes j t hj := hslots ▸ hst.homes j t hj
  steps := Nat.le_trans hst.steps (Nat.add_le_add_right hsteps _)

/-- One instruction that changes temporaries only, and none below `n`. -/
theorem Goes.single {i : Inst} (hst : Stands M st f m) (hat : M.routine.body[f.pc]? = some i)
    (hn : next M.program M.routine f m i = .go g (tick m)) (hkept : Kept n f g)
    (hslots : g.slots = f.slots) : Goes M n f m st g (tick m) st :=
  ⟨.single hat hn, hkept, hst.still hslots hkept.size rfl rfl rfl (Nat.le_succ _), .refl st⟩

/-! Composition. -/

theorem Meets.after (hx : Meets M targets n' g u st' Q x) (hfg : Goes M n f m st g u st')
    (hn : n ≤ n') : Meets M targets n f m st Q x := by
  rcases x with ⟨b, w⟩ | ⟨e, w⟩
  · obtain ⟨h, v, hgh, hq⟩ := hx
    exact ⟨h, v, hfg.trans hgh hn, hq⟩
  cases e with
  | fault e => exact Ends.before hx hfg.leads
  | returned v => exact Ends.before hx hfg.leads
  | broke =>
    obtain ⟨l, h, v, hl, hgh, hpc⟩ := hx
    exact ⟨l, h, v, hl, hfg.trans hgh hn, hpc⟩
  | continued =>
    obtain ⟨l, h, v, hl, hgh, hpc⟩ := hx
    exact ⟨l, h, v, hl, hfg.trans hgh hn, hpc⟩
  | unfinished => exact hfg.leads.exceeds hx
  | stuck => exact hx

theorem Meets.imp {Q' : β → Store → Frame → Prop} (hx : Meets M targets n f m st Q x)
    (hQ : ∀ b st' g u, Goes M n f m st g u st' → Q b st' g → Q' b st' g) :
    Meets M targets n f m st Q' x := by
  rcases x with ⟨b, w⟩ | ⟨e, w⟩
  · obtain ⟨g, u, hfg, hq⟩ := hx
    exact ⟨g, u, hfg, hQ b w g u hfg hq⟩
  · cases e <;> exact hx

/-- What follows goes on from where the first action got. -/
theorem Meets.bind {act : Action β} {k : β → Action γ} (hx : Meets M targets n f m st Q (act st))
    (hn : n ≤ n') (hk : ∀ b st' g u, Goes M n f m st g u st' → Q b st' g →
      Meets M targets n' g u st' Q' (k b st')) :
    Meets M targets n f m st Q' ((act >>= k) st) := by
  show Meets M targets n f m st Q' (EStateM.bind act k st)
  unfold EStateM.bind
  cases hact : act st with
  | ok b st' =>
    rw [hact] at hx
    obtain ⟨g, u, hfg, hq⟩ := hx
    exact (hk b st' g u hfg hq).after hfg hn
  | error e st' =>
    rw [hact] at hx
    cases e <;> exact hx

/-- As `Meets.bind`, between the ends of pieces of code. -/
theorem Meets.seq {act : Action β} {k : β → Action γ} {R : β → Frame → Prop}
    (hx : Meets M targets s.temps f m st (Lands t R) (act st)) (hat : At M scopes s st f m)
    (hle : s.temps ≤ t.temps)
    (hk : ∀ b st' g u, At M scopes t st' g u → Kept s.temps f g → R b g →
      Meets M targets t.temps g u st' Q' (k b st')) :
    Meets M targets s.temps f m st Q' ((act >>= k) st) :=
  hx.bind hle fun b st' g u hfg hq => hk b st' g u (hat.goes hfg hle hq.1) hfg.kept hq.2

theorem Meets.map {act : Action β} {φ : β → γ} (hx : Meets M targets n f m st Q (act st))
    (hQ : ∀ b st' g, Q b st' g → Q' (φ b) st' g) :
    Meets M targets n f m st Q' ((φ <$> act) st) := by
  show Meets M targets n f m st Q' (EStateM.map φ act st)
  unfold EStateM.map
  cases hact : act st with
  | ok b st' =>
    rw [hact] at hx
    obtain ⟨g, u, hfg, hq⟩ := hx
    exact ⟨g, u, hfg, hQ b st' g hq⟩
  | error e st' =>
    rw [hact] at hx
    cases e <;> exact hx

/-- Nothing is done for what is there already. -/
theorem meets_pure {R : β → Frame → Prop} {b : β} (hst : Stands M st f m)
    (hpc : f.pc = s.code.size) (hb : R b f) :
    Meets M targets n f m st (Lands s R) ((pure b : Action β) st) :=
  ⟨f, m, .refl hst n, hpc, hb⟩

/-! Straight code. -/

theorem Goes.of_arrives (hst : Stands M st f m)
    (h : Lowering.Arrives M.program M.routine s s' f m g u) : Goes M s.temps f m st g u st := by
  have hleads : Leads M.program M.limit M.routine f m g u := h.path.leads
  exact ⟨hleads, h.kept, hst.still h.slots h.kept.size h.memory h.stack h.depth hleads.steps, .refl st⟩

theorem meets_lift (targets : Option (Label × Label)) {v : Operand} {y : Except Fault Int64}
    (hst : Stands M st f m) (h : Gives M.program M.routine s s' f m v y) :
    Meets M targets s.temps f m st (Lands s' (Yields M s'.temps v)) (Evaluation.lift y st) := by
  cases y with
  | ok y =>
    obtain ⟨g, u, harrives, hv, hb⟩ := h
    exact ⟨g, u, .of_arrives hst harrives, harrives.pc, hv, hb⟩
  | error e =>
    obtain ⟨g, u, i, w, hpath, hat, hn, hmemory⟩ := h
    have hleads : Leads M.program M.limit M.routine f m g u := hpath.leads
    exact ⟨w, hleads.finishes (.done hat trivial hn), hmemory.trans hst.memory⟩

/-- The instruction that was emitted at the end of `s`. -/
theorem Setting.Hosts.at_push {i : Inst} (hM : M.Hosts s') (hs : s'.code = s.code.push i) :
    M.routine.body[s.code.size]? = some i := by
  obtain ⟨rest, hrest⟩ := hM.code
  rw [← Array.getElem?_toList, ← hrest, hs, Array.toList_push, List.append_assoc,
    List.getElem?_append_right (by simp)]
  simp

end Points

end MiniC.Simulation
