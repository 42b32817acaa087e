import MiniC.Proofs.Compilation.Evaluation
/-!
Addresses of access paths in compiled code. Main statement: the code for a path, wherever it stands in
a function, gets to a base and an offset whose sum is the address of the path.
-/
namespace MiniC

open Code (Function Label)
open Evaluation (Program Scopes Store)
open Lowering (Agrees)
open Machine (Frame Loaded Routine)
open Simulation (At Meets Setting)
open Syntax (CompilationUnit Expr)

namespace Simulation

variable {code : Code.Module} {l : Loaded}

/-- A function of loaded code, as it is run from some state of the machine. -/
def Setting.ofFunction (p : Program) (code : Code.Module) (l : Loaded) (g : Function) (rounds : Nat)
    (m : Machine.State) : Setting :=
  ⟨l.program, Routine.ofFunction g, m.depth, m.steps + rounds, rounds, p.text, code.data⟩

/-- The store of an activation: a local has the storage that the frame keeps for it. -/
def Setting.store (M : Setting) (f : Frame) (m : Machine.State) : Store where
  memory := m.memory
  stack := m.stack
  homes j := M.slots[j]?.bind fun t => f.slots.getD t none

/-- Code that stands at some point of a function. -/
structure Stand (m : Code.Module) (g : Function) (s : Lowering.State) : Prop where
  code : s.code.toList <+: g.body
  temps : s.temps ≤ g.temps
  data : s.data.toList <+: m.data

/-- A frame of the function that is at the end of the code of `s`, with the addresses of the locals in
scope in their temporaries. -/
structure Reached (g : Function) (s : Lowering.State) (f : Frame) : Prop where
  pc : f.pc = s.code.size
  temps : f.temps.size = g.temps
  slots : f.slots.size = g.temps
  locals : ∀ scope ∈ s.slots, ∀ x ∈ scope, f.slots.getD x.2 none = some (f.temps.getD x.2 0)

theorem Reached.at (code : Code.Module) (l : Loaded) {p : Program} {g : Function}
    {s : Lowering.State} {f : Frame} {scopes : Scopes}
    {k : Evaluation.Counters} (h : Reached g s f) (hk : Agrees scopes k s)
    (hs : s.code.toList <+: g.body) (rounds : Nat) (m : Machine.State) :
    At (.ofFunction p code l g rounds m) scopes s
      ((Setting.ofFunction p code l g rounds m).store f m) f m where
  memory := rfl
  stack := rfl
  depth := rfl
  temps := h.temps
  slots := h.slots
  homes j t hj := by
    simp only [Setting.store, hj]
    rfl
  steps := Nat.le_refl _
  held scope hscope x hx := by
    obtain ⟨bound, hbound, hpairs⟩ := Lowering.exists_of_forall₂ hk.bindings hscope
    obtain ⟨y, hy, -, hslot⟩ := Lowering.exists_of_forall₂ hpairs hx
    have hslot' : (Setting.ofFunction p code l g rounds m).slots[x.2]? = some y.2 :=
      Lowering.getElem?_of_prefix (hs.filterMap _) hslot
    refine ⟨y.2, f.temps.getD y.2 0, hslot', hk.below _ (List.mem_of_getElem? hslot), ?_, rfl⟩
    simp only [Setting.store, hslot']
    exact h.locals bound hbound y hy
  pc := h.pc

theorem Linked.hosts {p : Program} (h : Linked p code l.program) {g : Function}
    (hg : g ∈ code.functions) {s : Lowering.State} (hs : Stand code g s) (rounds : Nat)
    (m : Machine.State) : (Setting.ofFunction p code l g rounds m).Hosts s where
  sound := h.sound (M := .ofFunction p code l g rounds m) ⟨rfl, rfl, rfl⟩ hg
    (h.nodup_allocations (M := .ofFunction p code l g rounds m) ⟨rfl, rfl, rfl⟩ hg)
  code := hs.code
  temps := hs.temps
  data := hs.data

end Simulation

/-- In an accepted source, wherever the code for an expression that is used as an lvalue stands in a
function, and in whatever state the machine begins it with the locals in scope: the machine does what
evaluating the address of the expression does. Where that yields an address, the code ends with a
base and an offset that add up to the address, as words; where it does not, control does not get to
the end of the code. And a subscript that is a literal gives the address that any other subscript
gives which has the same value at run time. -/
theorem Compilation.place_at_address {layout : Layout.Config} {source : String}
    {tree : CompilationUnit} {registry : Registry} {code : Code.Module} {limits : Machine.Limits}
    {l : Loaded} (h : (do check layout (← parse source)) = .ok (tree, registry))
    (hcode : Lowering.lower registry tree = .ok code) (hload : Machine.load code limits = .ok l)
    {g : Function} (hg : g ∈ code.functions) (returns : TypeId) (targets : Option (Label × Label))
    {scopes : Scopes} {k : Evaluation.Counters} {s : Lowering.State} (hk : Agrees scopes k s)
    (rounds room : Nat) :
    let p := Program.ofLoaded registry tree l
    let c := p.context rounds room returns scopes targets.isSome
    (∀ e place s', Lowering.placeOf e (Lowering.expr (Simulation.inCode c targets) e) s =
          .ok (place, s') → Simulation.Stand code g s' →
        ∀ f m, Simulation.Reached g s f → p.callDepth - m.depth = room →
          let M := Setting.ofFunction p code l g rounds m
          Meets M targets s.temps f m (M.store f m) (fun address _ f' => f'.pc = s'.code.size ∧
              ∃ base, Machine.value l.program f' place.base = .ok base ∧
                base + place.offset = address)
            ((Evaluation.address c e k).1 (M.store f m))) ∧
      ∀ array literal other ty i, literal.constant? = some i → other.constant? = none →
        ∀ span span' st st₁ st₂ address,
          (Evaluation.address c ⟨.index array literal, span, some ty⟩ k).1 st = .ok address st₁ →
          (Evaluation.value c other (Evaluation.expr c array k).2).1 st₁ = .ok i st₂ →
          (Evaluation.address c ⟨.index array other, span', some ty⟩ k).1 st = .ok address st₂ := by
  obtain ⟨u, -, hcheck⟩ := Machine.except_bind_eq_ok.mp h
  obtain ⟨herrors, rfl, rfl⟩ := accepted_of_check hcheck
  have hlinked := Simulation.linked_of_load herrors hcode hload
  intro p c
  refine ⟨fun e place s' hplace hstand f m hreached hroom => ?_, ?_⟩
  · subst hroom
    intro M
    have hfits : Simulation.Fits M targets c := hlinked.fits ⟨rfl, rfl, rfl⟩ returns scopes targets
    have hruns := Simulation.runs_address hfits e hplace hk
    have hat := hreached.at code l (p := p) hk
      (hruns.grows.code.trans hstand.code) rounds m
    refine (hruns.meets (hlinked.hosts hg hstand rounds m) hat).imp fun address st' f' m' _ hq => ?_
    obtain ⟨base, hbase, hsum⟩ := hq.2.base
    exact ⟨hq.1, base, hbase.value, hsum⟩
  · intro array literal other ty i hliteral hother span span' st st₁ st₂ address haddress hvalue
    exact Evaluation.address_of_value hliteral hother haddress hvalue

/-- A global, at the beginning of a function that reads it. -/
theorem Compilation.place_of_global_at_address :
    ∃ tree registry code l g, ∃ place : Lowering.Place,
      (do check ⟨.lp64, 64⟩ (← parse "int n = 5; int f(void) { return n; }")) = .ok (tree, registry) ∧
      Lowering.lower registry tree = .ok code ∧ Machine.load code ⟨128, 4, 1000⟩ = .ok l ∧
      g ∈ code.functions ∧ ∀ m : Machine.State, ∃ f' m' base address,
        l.address? "n" = some address ∧
        Machine.Leads l.program m.steps (Routine.ofFunction g) (Frame.enter (Routine.ofFunction g) [])
          m f' m' ∧
        Machine.value l.program f' place.base = .ok base ∧ base + place.offset = address := by
  let shape (m : Code.Module) : List (Nat × Option Code.Inst) × List String :=
    (m.functions.map fun g => (g.temps, g.body.head?), m.globals.map (·.name))
  have hrun : ((do check ⟨.lp64, 64⟩ (← parse "int n = 5; int f(void) { return n; }")).toOption.bind
      fun x => (Lowering.lower x.2 x.1).toOption.bind fun code =>
        (Machine.load code ⟨128, 4, 1000⟩).toOption.map fun _ => shape code) =
      some ([(3, some (.addressOf 0 "n"))], ["n"]) := by decide +kernel
  obtain ⟨⟨tree, registry⟩, hcheck, hrun⟩ := Option.bind_eq_some_iff.mp hrun
  obtain ⟨code, hcode, hrun⟩ := Option.bind_eq_some_iff.mp hrun
  obtain ⟨l, hload, hshape⟩ := Option.map_eq_some_iff.mp hrun
  replace hcheck := ok_of_toOption hcheck
  replace hcode := ok_of_toOption hcode
  replace hload := ok_of_toOption hload
  obtain ⟨hfunctions, hglobals⟩ := Prod.mk.inj hshape
  obtain ⟨g, hg, hshape⟩ := List.map_eq_singleton_iff.mp hfunctions
  obtain ⟨htemps, hfirst⟩ := Prod.mk.inj hshape
  obtain ⟨rest, hbody⟩ : ∃ rest, g.body = .addressOf 0 "n" :: rest := by
    cases hlist : g.body with
    | nil => rw [hlist] at hfirst; cases hfirst
    | cons i rest => rw [hlist] at hfirst; cases hfirst; exact ⟨rest, rfl⟩
  obtain ⟨address, haddress⟩ : ∃ address, l.address? "n" = some address := by
    obtain ⟨placements, memory, stack, hloads⟩ := Machine.loads_of_load hload
    obtain rfl := Except.ok.inj ((hloads.load_eq code.functions).symm.trans hload)
    refine Option.isSome_iff_exists.mp (Machine.isSome_symbolsOf ?_)
    rw [hloads.names, hglobals]
    exact List.mem_append_left _ List.mem_cons_self
  have hmem : g ∈ code.functions := hg ▸ List.mem_cons_self
  refine ⟨tree, registry, code, l, g, ⟨.temp 0, 0, Registry.cInt⟩, hcheck, hcode, hload, hmem,
    fun m => ?_⟩
  let before : Lowering.State := { Lowering.State.initial with slots := [[]] }
  have hmeets := (place_at_address hcheck hcode hload hmem Registry.cInt none (k := ⟨0, 0⟩)
    (s := before) ⟨⟨rfl, rfl, nofun, .nil⟩, .cons .nil .nil⟩ 0 (l.program.limits.callDepth - m.depth)).1 ⟨.name "n", default, some Registry.cInt⟩
    ⟨.temp 0, 0, Registry.cInt⟩ _ rfl
    ⟨by simp [hbody, before, Lowering.State.initial], by simp [htemps, before, Lowering.State.initial],
      by simp [before, Lowering.State.initial]⟩
    (Frame.enter (Routine.ofFunction g) []) m
    ⟨rfl, by simp [Frame.enter, Routine.ofFunction], by simp [Frame.enter, Routine.ofFunction],
      by simp [before]⟩ rfl
  have haddressed (room : Nat) (st : Store) : (Evaluation.address
      ((Program.ofLoaded registry tree l).context 0 room Registry.cInt [[]] (none : Option (Label × Label)).isSome)
      ⟨.name "n", default, some Registry.cInt⟩ ⟨0, 0⟩).1 st = .ok address st := by
    show Evaluation.Context.place ((Program.ofLoaded registry tree l).context 0 room Registry.cInt [[]]
      false) "n" st = _
    unfold Evaluation.Context.place
    simp only [List.findSome?_cons, List.findSome?_nil, List.lookup_nil, Program.context,
      Program.ofLoaded, haddress]
    rfl
  dsimp only at hmeets
  rw [haddressed] at hmeets
  obtain ⟨f', m', hgoes, -, base, hbase, hsum⟩ := hmeets
  exact ⟨f', m', base, address, haddress, hgoes.leads, hbase, hsum⟩

end MiniC
