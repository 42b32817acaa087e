import MiniC.Proofs.Layout.Placement
import MiniC.Proofs.Machine.Image
import MiniC.Proofs.Machine.Refinement
/-!
The stack of a running machine. `visited` lists the configurations that a run passes through, each
with all live activations and the blocks that they allocated. Main statement: in each of them the
blocks lie apart from one another and above the image, below the end of the stack, and every call
gives back its stack and its depth, however it ended.
-/
namespace MiniC.Machine

open Code (Inst Temp Module)

/-- A range of memory. -/
structure Extent where
  start : Nat
  size : Nat
  deriving DecidableEq, Repr

namespace Extent

def stop (e : Extent) : Nat := e.start + e.size

def Apart (e e' : Extent) : Prop := e.stop ≤ e'.start ∨ e'.stop ≤ e.start

end Extent

/-- An object on the stack, with the allocation that made it. -/
structure Block extends Extent where
  dst : Temp
  align : Nat
  deriving DecidableEq, Repr

/-- A routine that has not ended yet, with the blocks that it allocated, the newest first. -/
structure Activation where
  routine : Routine
  frame : Frame
  blocks : List Block

namespace Activation

def enter (r : Routine) (args : List Int64) : Activation := ⟨r, .enter r args, []⟩

def moved (a : Activation) (f : Frame) : Activation := { a with frame := f }

end Activation

/-- What an instruction allocates. An allocation that already has its slot makes nothing new. -/
def allotted (f : Frame) (s : State) : Inst → Option Block
  | .alloca dst size align =>
    match f.slots.getD dst none with
    | some _ => none
    | none =>
      match reserve s size align with
      | .error _ => none
      | .ok (start, _) => some ⟨⟨start, size⟩, dst, align⟩
  | _ => none

def Activation.advanced (a : Activation) (s : State) (i : Inst) (f : Frame) : Activation :=
  { a with frame := f, blocks := (allotted a.frame s i).toList ++ a.blocks }

/-- The live activations, the running one first, and what they all share. -/
structure Configuration where
  live : List Activation
  state : State

def Configuration.blocks (c : Configuration) : List Block := c.live.flatMap (·.blocks)

/-- A call, from outside or from a frame: the machine's own recursion goes through here. -/
def called (p : Program) (fuel : Nat) (s : State) (name : String) (args : List Int64) :
    Except Fault Int64 × State :=
  match dispatch p s name args with
  | .answer result => (result, s)
  | .enter r =>
    let (result, t) := execute p fuel r (Frame.enter r args) (deeper s)
    (result, leave s.stack s.depth t)

/-- The configurations between the instructions of a run, those of the runs that it calls
included. -/
def visited (p : Program) :
    (fuel : Nat) → List Activation → Activation → State → List Configuration
  | 0, _, _, _ => []
  | fuel + 1, callers, a, s =>
    ⟨a :: callers, s⟩ ::
      match a.routine.body[a.frame.pc]? with
      | none => []
      | some i =>
        if p.limits.steps ≤ s.steps then []
        else
          match next p a.routine a.frame s i with
          | .done _ t => [⟨a :: callers, t⟩]
          | .go f t => visited p fuel callers (a.advanced s i f) t
          | .call dst name args f t =>
            (match dispatch p t name args with
              | .answer _ => []
              | .enter r => visited p fuel (a.moved f :: callers) (.enter r args) (deeper t)) ++
            match called p fuel t name args with
            | (.error _, u) => [⟨a.moved f :: callers, u⟩]
            | (.ok v, u) => visited p fuel callers (a.moved (resume f dst v)) u

/-- The configurations that a call from outside passes through. -/
def visitedIn (p : Program) (s : State) (name : String) (args : List Int64) :
    List Configuration :=
  match dispatch p s name args with
  | .answer _ => [⟨[], s⟩]
  | .enter r => visited p (p.limits.steps - s.steps + 1) [] (.enter r args) (deeper s)

/-- Where a machine is after calls that were made one after the other. -/
def served (p : Program) : State → List (String × List Int64) → State
  | s, [] => s
  | s, (name, args) :: requests => served p (call p s name args).2 requests

section Calls

theorem routine_of_callee {p : Program} {s : State} {name : String} {args : List Int64}
    {r : Routine} (h : callee p s name args = .ok r) : p.routines[name]? = some r := by
  unfold callee at h
  cases hr : p.routines[name]? with
  | none =>
    rw [hr] at h
    cases h
  | some r' =>
    simp only [hr] at h
    split at h
    · split at h
      · exact congrArg some (Except.ok.inj h)
      · cases h
    · cases h

theorem routine_of_dispatch {p : Program} {s : State} {name : String} {args : List Int64}
    {r : Routine} (h : dispatch p s name args = .enter r) : p.routines[name]? = some r := by
  unfold dispatch at h
  by_cases hname : name = assertName
  · rw [if_pos hname] at h
    cases h
  · rw [if_neg hname] at h
    cases hcallee : callee p s name args with
    | error e =>
      rw [hcallee] at h
      cases h
    | ok r' =>
      rw [hcallee] at h
      cases h
      exact routine_of_callee hcallee

variable {p : Program} {s : State} {name : String} {args : List Int64}

theorem call_eq_called (p : Program) (s : State) (name : String) (args : List Int64) :
    call p s name args = called p (p.limits.steps - s.steps + 1) s name args :=
  call_eq p s name args

theorem execute_called {fuel : Nat} {r : Routine} {f f' : Frame} {s' : State} {i : Inst}
    {dst : Option Temp} (hat : r.body[f.pc]? = some i) (hs : ¬ p.limits.steps ≤ s.steps)
    (hn : next p r f s i = .call dst name args f' s') :
    execute p (fuel + 1) r f s =
      match called p fuel s' name args with
      | (.error e, t) => (.error e, t)
      | (.ok v, t) => execute p fuel r (resume f' dst v) t := by
  simp only [execute_succ, hat, hn, if_neg hs, called]
  cases dispatch p s' name args with
  | answer result => cases result <;> rfl
  | enter r' =>
    simp only
    rcases execute p fuel r' (Frame.enter r' args) (deeper s') with ⟨_ | _, t⟩ <;> rfl

/-- However a call ends, and however deep it failed. -/
theorem called_restores (p : Program) (fuel : Nat) (s : State) (name : String)
    (args : List Int64) :
    (called p fuel s name args).2.stack = s.stack ∧
      (called p fuel s name args).2.depth = s.depth := by
  unfold called
  cases dispatch p s name args with
  | answer result => exact ⟨rfl, rfl⟩
  | enter r => exact ⟨rfl, rfl⟩

theorem served_restores (p : Program) (s : State) (requests : List (String × List Int64)) :
    (served p s requests).stack = s.stack ∧ (served p s requests).depth = s.depth := by
  induction requests generalizing s with
  | nil => exact ⟨rfl, rfl⟩
  | cons request requests ih =>
    obtain ⟨name, args⟩ := request
    obtain ⟨hstack, hdepth⟩ := ih (call p s name args).2
    obtain ⟨hstack', hdepth'⟩ := called_restores p (p.limits.steps - s.steps + 1) s name args
    rw [← call_eq_called] at hstack' hdepth'
    exact ⟨hstack.trans hstack', hdepth.trans hdepth'⟩

end Calls

/-! One instruction. -/

theorem lt_of_alignTo {n align m : Nat} (h : Layout.alignTo n align = some m) :
    n + (align - 1) < Layout.addressSpace := by
  simp only [Layout.alignTo, Option.ite_none_right_eq_some] at h
  exact h.1

theorem le_of_alignTo {n align m : Nat} (h : Layout.alignTo n align = some m) : n ≤ m := by
  have hmask := Nat.and_le_right (n := n + (align - 1)) (m := align - 1)
  simp only [Layout.alignTo, Option.ite_none_right_eq_some, Option.some.injEq] at h
  omega

theorem dvd_of_alignTo {n k m : Nat} (h : Layout.alignTo n (2 ^ k) = some m) : 2 ^ k ∣ m := by
  rw [Layout.alignTo_two_pow] at h
  split at h
  · exact Option.some.inj h ▸ Layout.dvd_roundUp n (2 ^ k)
  · cases h

theorem reserve_eq_ok {s : State} {size align start stop : Nat}
    (h : reserve s size align = .ok (start, stop)) :
    Layout.alignTo s.stack (max align 1) = some start ∧ stop = start + size ∧
      stop ≤ s.memory.size := by
  unfold reserve at h
  split at h
  · cases h
  · rename_i start' halign
    by_cases hfits : start' + size ≤ s.memory.size
    · rw [if_pos hfits] at h
      cases h
      exact ⟨halign, rfl, hfits⟩
    · rw [if_neg hfits] at h
      cases h

/-- Only a fresh allocation moves the end of the stack or fills a slot. -/
inductive Stacks (f : Frame) (s : State) (i : Inst) (f' : Frame) (s' : State) : Prop where
  | keeps (none : allotted f s i = none) (slots : f'.slots = f.slots) (stack : s'.stack = s.stack)
  | pushes (b : Block) (inst : i = .alloca b.dst b.size b.align)
      (made : allotted f s i = some b) (fresh : f.slots.getD b.dst Option.none = Option.none)
      (slots : f'.slots = f.slots.setIfInBounds b.dst (some (Int64.ofNat b.start)))
      (start : Layout.alignTo s.stack (max b.align 1) = some b.start)
      (fits : b.stop ≤ s.memory.size) (stack : s'.stack = b.stop)

/-- What a step leaves of the slots, the stack and the size of the memory. -/
def Next.Stacks (f : Frame) (s : State) (i : Inst) : Next → Prop
  | .go f' s' => Machine.Stacks f s i f' s' ∧ s'.memory.size = s.memory.size
  | .call _ _ _ f' s' =>
    f'.slots = f.slots ∧ s'.stack = s.stack ∧ s'.memory.size = s.memory.size
  | .done _ s' => s'.stack = s.stack ∧ s'.memory.size = s.memory.size

section Step

variable {p : Program} {r : Routine} {f g : Frame} {s : State} {i : Inst}

theorem stacks_assign (hf : g.slots = f.slots) (hi : allotted f s i = none) (dst : Temp)
    (v : Except Fault Int64) : (assign g (tick s) dst v).Stacks f s i := by
  cases v with
  | error e => exact ⟨rfl, rfl⟩
  | ok v => exact ⟨.keeps hi hf rfl, rfl⟩

theorem stacks_jump (hf : g.slots = f.slots) (hi : allotted f s i = none)
    (target : Code.Label) : (jump r g (tick s) target).Stacks f s i := by
  unfold jump
  split
  · exact ⟨rfl, rfl⟩
  · exact ⟨.keeps hi hf rfl, rfl⟩

theorem stacks_branch (hf : g.slots = f.slots) (hi : allotted f s i = none)
    (cond : Code.Operand) (target : Code.Label) (taken : Int64 → Bool) :
    (branch p r g (tick s) cond target taken).Stacks f s i := by
  unfold branch
  split
  · exact ⟨rfl, rfl⟩
  · split
    · exact stacks_jump hf hi target
    · exact ⟨.keeps hi hf rfl, rfl⟩

theorem stacks_storeTo (hf : g.slots = f.slots) (hi : allotted f s i = none)
    (base : Code.Operand) (offset : Int64) (src : Code.Operand) (size : Nat) :
    (storeTo p g (tick s) base offset src size).Stacks f s i := by
  unfold storeTo
  split
  · exact ⟨rfl, rfl⟩
  split
  · exact ⟨rfl, rfl⟩
  split
  · exact ⟨rfl, rfl⟩
  · exact ⟨.keeps hi hf rfl, Memory.size_put ..⟩

theorem stacks_allocate (hf : g.slots = f.slots) (dst : Temp) (size align : Nat) :
    (allocate g (tick s) dst size align).Stacks f s (.alloca dst size align) := by
  have hroom : reserve (tick s) size align = reserve s size align := rfl
  cases hslot : f.slots.getD dst none with
  | some address =>
    simp only [allocate, hf, hslot]
    refine ⟨.keeps ?_ hf rfl, rfl⟩
    simp only [allotted, hslot]
  | none =>
    simp only [allocate, hf, hslot, hroom]
    cases hreserve : reserve s size align with
    | error e => exact ⟨rfl, rfl⟩
    | ok room =>
      obtain ⟨start, stop⟩ := room
      obtain ⟨halign, rfl, hfits⟩ := reserve_eq_ok hreserve
      refine ⟨.pushes ⟨⟨start, size⟩, dst, align⟩ rfl ?_ hslot ?_ halign hfits rfl, rfl⟩
      · simp only [allotted, hslot, hreserve]
      · simp only [Frame.setSlot, hf]

theorem stacks_next (p : Program) (r : Routine) (f : Frame) (s : State) (i : Inst) :
    (next p r f s i).Stacks f s i := by
  have hf : (f.goto (f.pc + 1)).slots = f.slots := rfl
  cases i with
  | label name => exact ⟨.keeps rfl rfl rfl, rfl⟩
  | comment text => exact ⟨.keeps rfl rfl rfl, rfl⟩
  | store base offset src size => exact stacks_storeTo hf rfl base offset src size
  | jump target => exact stacks_jump hf rfl target
  | branchIf cond target => exact stacks_branch hf rfl cond target _
  | branchUnless cond target => exact stacks_branch hf rfl cond target _
  | call dst name args =>
    simp only [next, step]
    split
    · exact ⟨rfl, rfl⟩
    · exact ⟨rfl, rfl, rfl⟩
  | ret value => cases value <;> exact ⟨rfl, rfl⟩
  | alloca dst size align => exact stacks_allocate hf dst size align
  | _ => exact stacks_assign hf rfl _ _

end Step

/-- How a run comes to a configuration: at once, after its next instruction, or inside of the call that
this is or after it. -/
inductive Comes (p : Program) (fuel : Nat) (callers : List Activation) (a : Activation) (s : State)
    (c : Configuration) : Prop where
  | here (h : c = ⟨a :: callers, s⟩)
  | done {i : Inst} {result : Except Fault Int64} {t : State} (hat : a.routine.body[a.frame.pc]? = some i)
      (hn : next p a.routine a.frame s i = .done result t) (h : c = ⟨a :: callers, t⟩)
  | go {i : Inst} {f : Frame} {t : State} (hat : a.routine.body[a.frame.pc]? = some i)
      (hn : next p a.routine a.frame s i = .go f t) (h : c ∈ visited p fuel callers (a.advanced s i f) t)
  | inside {i : Inst} {dst : Option Temp} {name : String} {args : List Int64} {f : Frame} {t : State}
      {r : Routine} (hat : a.routine.body[a.frame.pc]? = some i)
      (hn : next p a.routine a.frame s i = .call dst name args f t)
      (hd : dispatch p t name args = .enter r)
      (h : c ∈ visited p fuel (a.moved f :: callers) (.enter r args) (deeper t))
  | failed {i : Inst} {dst : Option Temp} {name : String} {args : List Int64} {f : Frame} {t u : State}
      {e : Fault} (hat : a.routine.body[a.frame.pc]? = some i)
      (hn : next p a.routine a.frame s i = .call dst name args f t)
      (hcalled : called p fuel t name args = (.error e, u)) (h : c = ⟨a.moved f :: callers, u⟩)
  | back {i : Inst} {dst : Option Temp} {name : String} {args : List Int64} {f : Frame} {t u : State}
      {v : Int64} (hat : a.routine.body[a.frame.pc]? = some i)
      (hn : next p a.routine a.frame s i = .call dst name args f t)
      (hcalled : called p fuel t name args = (.ok v, u))
      (h : c ∈ visited p fuel callers (a.moved (resume f dst v)) u)

theorem comes_of_visited {p : Program} {fuel : Nat} {callers : List Activation} {a : Activation}
    {s : State} {c : Configuration} (h : c ∈ visited p (fuel + 1) callers a s) :
    Comes p fuel callers a s c := by
  rw [visited] at h
  rcases List.mem_cons.mp h with rfl | h
  · exact .here rfl
  cases hat : a.routine.body[a.frame.pc]? with
  | none =>
    simp only [hat] at h
    exact absurd h List.not_mem_nil
  | some i =>
    simp only [hat] at h
    by_cases hlimit : p.limits.steps ≤ s.steps
    · rw [if_pos hlimit] at h
      exact absurd h List.not_mem_nil
    rw [if_neg hlimit] at h
    cases hn : next p a.routine a.frame s i with
    | done result t =>
      simp only [hn] at h
      exact .done hat hn (List.mem_singleton.mp h)
    | go f t =>
      simp only [hn] at h
      exact .go hat hn h
    | call dst name args f t =>
      simp only [hn] at h
      rcases List.mem_append.mp h with h | h
      · cases hd : dispatch p t name args with
        | answer result =>
          simp only [hd] at h
          exact absurd h List.not_mem_nil
        | enter r =>
          simp only [hd] at h
          exact .inside hat hn hd h
      · rcases hcalled : called p fuel t name args with ⟨e | v, u⟩
        · simp only [hcalled] at h
          exact .failed hat hn hcalled (List.mem_singleton.mp h)
        · simp only [hcalled] at h
          exact .back hat hn hcalled h

/-! Whole runs. -/

section Runs

variable {p : Program} {base : Nat} {s t : State} {a : Activation} {callers : List Activation}
  {f : Frame} {i : Inst}

theorem size_execute (p : Program) (fuel : Nat) (r : Routine) (f : Frame) (s : State) :
    (execute p fuel r f s).2.memory.size = s.memory.size := by
  induction fuel generalizing r f s with
  | zero => rfl
  | succ fuel ih =>
    rw [execute_succ]
    cases r.body[f.pc]? with
    | none => rfl
    | some i =>
      by_cases hlimit : p.limits.steps ≤ s.steps
      · simp only [if_pos hlimit]
        rfl
      have hstacks := stacks_next p r f s i
      simp only [if_neg hlimit]
      cases hn : next p r f s i with
      | done result t =>
        rw [hn] at hstacks
        exact hstacks.2
      | go f' s' =>
        rw [hn] at hstacks
        exact (ih r f' s').trans hstacks.2
      | call dst name args f' s' =>
        rw [hn] at hstacks
        obtain ⟨-, -, hsize⟩ := hstacks
        simp only
        cases dispatch p s' name args with
        | answer result =>
          cases result with
          | error e => exact hsize
          | ok v => exact (ih _ _ _).trans hsize
        | enter r' =>
          have hcallee := ih r' (Frame.enter r' args) (deeper s')
          rcases hc : execute p fuel r' (Frame.enter r' args) (deeper s') with ⟨e | v, t⟩
          · simp only [hc] at hcallee ⊢
            exact hcallee.trans hsize
          · simp only [hc] at hcallee ⊢
            exact (ih _ _ _).trans (hcallee.trans hsize)

theorem size_called (p : Program) (fuel : Nat) (s : State) (name : String) (args : List Int64) :
    (called p fuel s name args).2.memory.size = s.memory.size := by
  unfold called
  cases dispatch p s name args with
  | answer result => rfl
  | enter r => exact size_execute p fuel r _ (deeper s)

/-- A power of two is what an allocation may ask for. -/
def Routine.Aligned (r : Routine) : Prop :=
  ∀ dst size align, .alloca dst size align ∈ r.body → ∃ k, align = 2 ^ k

/-- The blocks lie one on top of the other, from `base` to the end of the stack, in the order in
which they were allocated; and every slot still has the address of its block. -/
structure Piled (base : Nat) (c : Configuration) : Prop where
  requests : ∀ a ∈ c.live, a.routine.Aligned
  slots : ∀ a ∈ c.live, a.frame.slots.size = a.routine.temps
  held : ∀ a ∈ c.live, ∀ b ∈ a.blocks, b.dst < a.routine.temps →
    a.frame.slots.getD b.dst none = some (Int64.ofNat b.start)
  ordered : c.blocks.Pairwise fun b b' => b'.stop ≤ b.start
  aligned : ∀ b ∈ c.blocks, b.align ∣ b.start
  inside : ∀ b ∈ c.blocks, base ≤ b.start ∧ b.stop ≤ c.state.stack
  above : base ≤ c.state.stack
  fits : c.state.stack ≤ c.state.memory.size
  depth : c.state.depth = c.live.length

namespace Piled

theorem moved (h : Piled base ⟨a :: callers, s⟩) (hslots : f.slots = a.frame.slots)
    (hstack : t.stack = s.stack) (hsize : t.memory.size = s.memory.size)
    (hdepth : t.depth = s.depth) : Piled base ⟨a.moved f :: callers, t⟩ where
  requests := by
    intro x hx
    rcases List.mem_cons.mp hx with rfl | hx
    · exact h.requests a (List.mem_cons_self ..)
    · exact h.requests x (List.mem_cons_of_mem _ hx)
  slots := by
    intro x hx
    rcases List.mem_cons.mp hx with rfl | hx
    · exact (congrArg Array.size hslots).trans (h.slots a (List.mem_cons_self ..))
    · exact h.slots x (List.mem_cons_of_mem _ hx)
  held := by
    intro x hx b hb hdst
    rcases List.mem_cons.mp hx with rfl | hx
    · show f.slots.getD b.dst none = _
      rw [hslots]
      exact h.held a (List.mem_cons_self ..) b hb hdst
    · exact h.held x (List.mem_cons_of_mem _ hx) b hb hdst
  ordered := h.ordered
  aligned := h.aligned
  inside := by
    intro b hb
    obtain ⟨hbase, hstop⟩ := h.inside b hb
    exact ⟨hbase, hstop.trans_eq hstack.symm⟩
  above := h.above.trans_eq hstack.symm
  fits := by
    have hfits := h.fits
    simp only at hfits ⊢
    omega
  depth := hdepth.trans h.depth

/-- A frame that is entered has no blocks yet. -/
theorem enter (h : Piled base ⟨callers, s⟩) {r : Routine} (hr : r.Aligned) (args : List Int64) :
    Piled base ⟨.enter r args :: callers, deeper s⟩ where
  requests := by
    intro x hx
    rcases List.mem_cons.mp hx with rfl | hx
    · exact hr
    · exact h.requests x hx
  slots := by
    intro x hx
    rcases List.mem_cons.mp hx with rfl | hx
    · exact Array.size_replicate
    · exact h.slots x hx
  held := by
    intro x hx b hb hdst
    rcases List.mem_cons.mp hx with rfl | hx
    · exact absurd hb List.not_mem_nil
    · exact h.held x hx b hb hdst
  ordered := h.ordered
  aligned := h.aligned
  inside := h.inside
  above := h.above
  fits := h.fits
  depth := congrArg (· + 1) h.depth

/-- A new block goes on top of the others, and takes no slot from them. -/
theorem pushed (h : Piled base ⟨a :: callers, s⟩) {b : Block}
    (hinst : .alloca b.dst b.size b.align ∈ a.routine.body)
    (hfresh : a.frame.slots.getD b.dst none = none)
    (hslots : f.slots = a.frame.slots.setIfInBounds b.dst (some (Int64.ofNat b.start)))
    (hstart : Layout.alignTo s.stack (max b.align 1) = some b.start)
    (hfits : b.stop ≤ s.memory.size) (hstack : t.stack = b.stop)
    (hsize : t.memory.size = s.memory.size) (hdepth : t.depth = s.depth) :
    Piled base ⟨{ a with frame := f, blocks := b :: a.blocks } :: callers, t⟩ := by
  have hle : s.stack ≤ b.start := le_of_alignTo hstart
  have hstop : b.start ≤ b.stop := Nat.le_add_right ..
  have habove := h.above
  have haligned : b.align ∣ b.start := by
    obtain ⟨k, hk⟩ := h.requests a (List.mem_cons_self ..) _ _ _ hinst
    have hmax : max b.align 1 = 2 ^ k := by
      have hpos : 0 < 2 ^ k := Nat.two_pow_pos k
      omega
    rw [hmax] at hstart
    exact hk ▸ dvd_of_alignTo hstart
  constructor
  · intro x hx
    rcases List.mem_cons.mp hx with rfl | hx
    · exact h.requests a (List.mem_cons_self ..)
    · exact h.requests x (List.mem_cons_of_mem _ hx)
  · intro x hx
    rcases List.mem_cons.mp hx with rfl | hx
    · refine Eq.trans ?_ (h.slots a (List.mem_cons_self ..))
      simp only [hslots, Array.size_setIfInBounds]
    · exact h.slots x (List.mem_cons_of_mem _ hx)
  · intro x hx b' hb' hdst
    rcases List.mem_cons.mp hx with rfl | hx
    · have hbound : b'.dst < a.frame.slots.size :=
        hdst.trans_eq (h.slots a (List.mem_cons_self ..)).symm
      show f.slots.getD b'.dst none = _
      rw [hslots]
      rcases List.mem_cons.mp hb' with rfl | hb'
      · simp [Array.getD_eq_getD_getElem?, hbound]
      · have hheld := h.held a (List.mem_cons_self ..) b' hb' hdst
        have hne : b.dst ≠ b'.dst := by
          intro heq
          rw [heq, hheld] at hfresh
          cases hfresh
        rw [← hheld]
        simp [Array.getD_eq_getD_getElem?, hne]
    · exact h.held x (List.mem_cons_of_mem _ hx) b' hb' hdst
  · refine List.pairwise_cons.mpr ⟨?_, h.ordered⟩
    intro b' hb'
    exact (h.inside b' hb').2.trans hle
  · intro b' hb'
    rcases List.mem_cons.mp hb' with rfl | hb'
    · exact haligned
    · exact h.aligned b' hb'
  · intro b' hb'
    rcases List.mem_cons.mp hb' with rfl | hb'
    · exact ⟨habove.trans hle, hstack.ge⟩
    · obtain ⟨hbase, hinside⟩ := h.inside b' hb'
      simp only at hinside ⊢
      omega
  · simp only at habove ⊢
    omega
  · simp only
    omega
  · exact hdepth.trans h.depth

/-- One instruction, other than a call. -/
theorem advanced (h : Piled base ⟨a :: callers, s⟩) (hat : a.routine.body[a.frame.pc]? = some i)
    (hn : next p a.routine a.frame s i = .go f t) :
    Piled base ⟨a.advanced s i f :: callers, t⟩ := by
  have hstacks := stacks_next p a.routine a.frame s i
  have hdepth := depth_next p a.routine a.frame s i
  rw [hn] at hstacks hdepth
  obtain ⟨hstacks, hsize⟩ := hstacks
  rcases hstacks with ⟨hnone, hslots, hstack⟩ | ⟨b, rfl, hmade, hfresh, hslots, hstart, hfits, hstack⟩
  · have heq : a.advanced s i f = a.moved f := by
      simp only [Activation.advanced, hnone, Option.toList_none, List.nil_append, Activation.moved]
    exact heq ▸ h.moved hslots hstack hsize hdepth
  · have heq : a.advanced s (.alloca b.dst b.size b.align) f =
        { a with frame := f, blocks := b :: a.blocks } := by
      simp only [Activation.advanced, hmade, Option.toList_some, List.singleton_append]
    have hmem : .alloca b.dst b.size b.align ∈ a.routine.body := Array.mem_of_getElem? hat
    exact heq ▸ h.pushed hmem hfresh hslots hstart hfits hstack hsize hdepth

/-- By induction on the fuel: every configuration of the run is piled, whatever was called. -/
theorem visited (hp : ∀ (name : String) (r : Routine), p.routines[name]? = some r → r.Aligned) {fuel : Nat}
    (h : Piled base ⟨a :: callers, s⟩) :
    ∀ c ∈ Machine.visited p fuel callers a s, Piled base c := by
  induction fuel generalizing callers a s with
  | zero => exact fun c hc => absurd hc List.not_mem_nil
  | succ fuel ih =>
    intro c hc
    have hstacks := stacks_next p a.routine a.frame s
    have hdepth := depth_next p a.routine a.frame s
    have hcaller {i : Inst} {dst : Option Temp} {name : String} {args : List Int64} {f : Frame} {t : State}
        (hn : next p a.routine a.frame s i = .call dst name args f t) :
        Piled base ⟨a.moved f :: callers, t⟩ := by
      have hstacks := hstacks i
      have hdepth := hdepth i
      rw [hn] at hstacks hdepth
      obtain ⟨hslots, hstack, hsize⟩ := hstacks
      exact h.moved hslots hstack hsize hdepth
    cases comes_of_visited hc with
    | here heq => exact heq ▸ h
    | @done i result t hat hn heq =>
      have hstacks := hstacks i
      have hdepth := hdepth i
      rw [hn] at hstacks hdepth
      obtain ⟨hstack, hsize⟩ := hstacks
      exact heq ▸ h.moved (f := a.frame) rfl hstack hsize hdepth
    | go hat hn hc => exact ih (h.advanced hat hn) c hc
    | inside hat hn hd hc => exact ih ((hcaller hn).enter (hp _ _ (routine_of_dispatch hd)) _) c hc
    | @failed i dst name args f t u e hat hn hcalled heq =>
      have hsize := size_called p fuel t name args
      obtain ⟨hstack, hdepth⟩ := called_restores p fuel t name args
      rw [hcalled] at hsize hstack hdepth
      exact heq ▸ (hcaller hn).moved (f := f) rfl hstack hsize hdepth
    | @back i dst name args f t u v hat hn hcalled hc =>
      have hsize := size_called p fuel t name args
      obtain ⟨hstack, hdepth⟩ := called_restores p fuel t name args
      rw [hcalled] at hsize hstack hdepth
      refine ih ((hcaller hn).moved (f := resume f dst v) ?_ hstack hsize hdepth) c hc
      cases dst <;> rfl

end Piled

end Runs

/-! The image. -/

/-- A global or a string as it was placed, with all its bytes. -/
structure Object extends Extent where
  name : String
  deriving DecidableEq, Repr

def Object.place (x : Placement × Nat) : Object := ⟨⟨x.1.address, x.2⟩, x.1.name⟩

/-- The size of the object of a string, whose data ends with a NUL. -/
def sizeOfDatum (d : Code.Datum) : Nat := (Bytes.ofText d.text).length + 1

def objects (limits : Limits) (m : Module) : List Object :=
  match Image.placeGlobals limits nullGuard m.globals with
  | .error _ => []
  | .ok (globals, cursor) =>
    (globals.zip (m.globals.map (·.size)) ++
      (Image.placeData cursor m.data).1.zip (m.data.map sizeOfDatum)).map Object.place

section Image

variable {limits : Limits} {cursor stop : Nat}

theorem advance_le (cursor size : Nat) : Image.advance cursor size ≤ Layout.addressSpace - 1 :=
  Nat.min_le_right ..

theorem alignTo_le {n align m : Nat} (h : Layout.alignTo n align = some m) :
    m ≤ Layout.addressSpace - 1 := by
  simp only [Layout.alignTo, Option.ite_none_right_eq_some, Option.some.injEq] at h
  omega

/-- A cursor that has not reached the largest address is above all that was placed. -/
theorem inside_placeGlobals {gs : List Code.Global} {ps : List Placement}
    (h : Image.placeGlobals limits cursor gs = .ok (ps, stop))
    (hcursor : cursor ≤ Layout.addressSpace - 1) :
    cursor ≤ stop ∧ stop ≤ Layout.addressSpace - 1 ∧
      (stop < Layout.addressSpace - 1 →
        ∀ x ∈ ps.zip (gs.map (·.size)), (Object.place x).stop ≤ stop) := by
  induction gs generalizing cursor ps with
  | nil =>
    cases h
    exact ⟨Nat.le_refl _, hcursor, fun _ o ho => absurd ho List.not_mem_nil⟩
  | cons g gs ih =>
    rw [Image.placeGlobals] at h
    split at h
    · cases h
    rename_i address halign
    split at h
    · cases h
    rename_i rest stop' hrest
    cases h
    obtain ⟨hle, hstop, hinside⟩ := ih hrest (advance_le ..)
    have hstart := le_of_alignTo halign
    have hend := alignTo_le halign
    refine ⟨?_, hstop, fun hlt o ho => ?_⟩
    · unfold Image.advance at hle
      omega
    · rcases List.mem_cons.mp ho with rfl | ho
      · show address + g.size ≤ stop
        unfold Image.advance at hle
        omega
      · exact hinside hlt o ho

theorem inside_placeData (ds : List Code.Datum) (hcursor : cursor ≤ Layout.addressSpace - 1) :
    cursor ≤ (Image.placeData cursor ds).2 ∧
      ((Image.placeData cursor ds).2 < Layout.addressSpace - 1 →
        ∀ x ∈ (Image.placeData cursor ds).1.zip (ds.map sizeOfDatum),
          (Object.place x).stop ≤ (Image.placeData cursor ds).2) := by
  induction ds generalizing cursor with
  | nil => exact ⟨Nat.le_refl _, fun _ o ho => absurd ho List.not_mem_nil⟩
  | cons d ds ih =>
    obtain ⟨hle, hinside⟩ := ih (advance_le cursor (sizeOfDatum d))
    refine ⟨?_, fun hlt o ho => ?_⟩
    · refine Nat.le_trans ?_ hle
      unfold Image.advance
      omega
    · rcases List.mem_cons.mp ho with rfl | ho
      · refine Nat.le_trans ?_ hle
        have hlt' := Nat.lt_of_le_of_lt hle hlt
        show cursor + sizeOfDatum d ≤ Image.advance cursor (sizeOfDatum d)
        unfold Image.advance at hlt' ⊢
        omega
      · exact hinside hlt o ho

theorem size_fill {memory memory' : Memory} {ps : List Placement}
    (h : Image.fill memory ps = .ok memory') : memory'.size = memory.size := by
  induction ps generalizing memory with
  | nil =>
    cases h
    rfl
  | cons p ps ih =>
    rw [Image.fill] at h
    split at h
    · exact ih h
    split at h
    · cases h
    · rename_i filled hwrite
      refine (ih h).trans ?_
      unfold Memory.writeBytes at hwrite
      split at hwrite
      · cases hwrite
      · cases hwrite
        exact Bytes.size_writeList ..

/-- The stack begins above every object of the image, and within the memory. -/
theorem stack_of_load {m : Module} {l : Loaded} (h : load m limits = .ok l) :
    (∀ o ∈ objects limits m, o.stop ≤ l.state.stack) ∧ l.state.stack ≤ l.state.memory.size ∧
      l.state.depth = 0 := by
  unfold load at h
  obtain ⟨⟨globals, cursor⟩, hglobals, h⟩ := except_bind_eq_ok.mp h
  obtain ⟨stack, hstack, h⟩ := except_bind_eq_ok.mp h
  obtain ⟨memory, hfill, h⟩ := except_bind_eq_ok.mp h
  cases h
  unfold Image.stackBase at hstack
  split at hstack
  · rename_i base halign
    by_cases hroom : base ≤ limits.memory
    · rw [if_pos hroom] at hstack
      cases hstack
      obtain ⟨-, hcursor, hinside⟩ := inside_placeGlobals hglobals (by decide)
      obtain ⟨hdata, hinside'⟩ := inside_placeData m.data hcursor
      have hbase := le_of_alignTo halign
      have hlt : (Image.placeData cursor m.data).2 < Layout.addressSpace - 1 := by
        have htop := lt_of_alignTo halign
        unfold Image.stackAlign at htop
        omega
      refine ⟨fun o ho => ?_, ?_, rfl⟩
      · simp only [objects, hglobals, List.mem_map, List.mem_append] at ho
        obtain ⟨x, hx | hx, rfl⟩ := ho
        · exact (hinside (Nat.lt_of_le_of_lt hdata hlt) x hx).trans (hdata.trans hbase)
        · exact (hinside' hlt x hx).trans hbase
      · have hsize := size_fill hfill
        simp only [Memory.size, Memory.zeros, Array.size_replicate] at hsize ⊢
        omega
    · rw [if_neg hroom] at hstack
      cases hstack
  · cases hstack

theorem above_placeGlobals {gs : List Code.Global} {ps : List Placement}
    (h : Image.placeGlobals limits cursor gs = .ok (ps, stop)) : ∀ p ∈ ps, cursor ≤ p.address := by
  induction gs generalizing cursor ps with
  | nil =>
    cases h
    exact nofun
  | cons g gs ih =>
    rw [Image.placeGlobals] at h
    split at h
    · cases h
    rename_i address halign
    split at h
    · cases h
    rename_i rest stop' hrest
    cases h
    have hstart := le_of_alignTo halign
    have hend := alignTo_le halign
    refine List.forall_mem_cons.mpr ⟨hstart, fun p hp => ?_⟩
    have hrest := ih hrest p hp
    unfold Image.advance at hrest
    omega

theorem above_placeData (ds : List Code.Datum) (hcursor : cursor ≤ Layout.addressSpace - 1) :
    ∀ p ∈ (Image.placeData cursor ds).1, cursor ≤ p.address := by
  induction ds generalizing cursor with
  | nil => exact nofun
  | cons d ds ih =>
    refine List.forall_mem_cons.mpr ⟨Nat.le_refl cursor, fun p hp => ?_⟩
    have hrest := ih (advance_le cursor (sizeOfDatum d)) p hp
    unfold Image.advance at hrest
    omega

/-- Everything that is loaded lies above the null guard, in a memory of the size that was asked. -/
theorem guarded_of_load {m : Module} {l : Loaded} (h : load m limits = .ok l) :
    (∀ o ∈ objects limits m, nullGuard ≤ o.start) ∧ nullGuard ≤ l.state.stack ∧
      l.state.memory.size = limits.memory := by
  unfold load at h
  obtain ⟨⟨globals, cursor⟩, hglobals, h⟩ := except_bind_eq_ok.mp h
  obtain ⟨stack, hstack, h⟩ := except_bind_eq_ok.mp h
  obtain ⟨memory, hfill, h⟩ := except_bind_eq_ok.mp h
  cases h
  obtain ⟨hfirst, hcursor, -⟩ := inside_placeGlobals hglobals (by decide)
  obtain ⟨hsecond, -⟩ := inside_placeData m.data hcursor
  refine ⟨fun o ho => ?_, ?_, ?_⟩
  · simp only [objects, hglobals, List.mem_map, List.mem_append] at ho
    obtain ⟨x, hx | hx, rfl⟩ := ho
    · exact above_placeGlobals hglobals x.1 (List.of_mem_zip hx).1
    · exact hfirst.trans (above_placeData m.data hcursor x.1 (List.of_mem_zip hx).1)
  · unfold Image.stackBase at hstack
    split at hstack
    · rename_i base halign
      split at hstack
      · cases hstack
        exact (hfirst.trans hsecond).trans (le_of_alignTo halign)
      · cases hstack
    · cases hstack
  · have hsize := size_fill hfill
    simpa only [Memory.size, Memory.zeros, Array.size_replicate] using hsize

theorem length_placeGlobals {gs : List Code.Global} {ps : List Placement}
    (h : Image.placeGlobals limits cursor gs = .ok (ps, stop)) : ps.length = gs.length := by
  have hnames := congrArg List.length (names_placeGlobals h)
  simpa using hnames

theorem length_placeData (cursor : Nat) (ds : List Code.Datum) :
    (Image.placeData cursor ds).1.length = ds.length := by
  have hnames := congrArg List.length (names_placeData cursor ds)
  simpa using hnames

/-- Every global and string has its object, and a name leads to the last object of that name. -/
theorem objects_of_load {m : Module} {l : Loaded} (h : load m limits = .ok l) :
    (objects limits m).map (·.name) = m.globals.map (·.name) ++ m.data.map (·.label) ∧
    (objects limits m).map (·.size) = m.globals.map (·.size) ++ m.data.map sizeOfDatum ∧
    ∀ name, l.address? name =
      ((objects limits m).reverse.find? (·.name == name)).map (Int64.ofNat ·.start) := by
  unfold load at h
  obtain ⟨⟨globals, cursor⟩, hglobals, h⟩ := except_bind_eq_ok.mp h
  obtain ⟨stack, hstack, h⟩ := except_bind_eq_ok.mp h
  obtain ⟨memory, hfill, h⟩ := except_bind_eq_ok.mp h
  cases h
  have hlength := length_placeGlobals hglobals
  have hlength' := length_placeData cursor m.data
  have hfst : (globals.zip (m.globals.map (·.size)) ++
      (Image.placeData cursor m.data).1.zip (m.data.map sizeOfDatum)).map (·.1) =
      globals ++ (Image.placeData cursor m.data).1 := by
    rw [List.map_append, List.map_fst_zip (by simp [hlength]), List.map_fst_zip (by simp [hlength'])]
  have hsnd : (globals.zip (m.globals.map (·.size)) ++
      (Image.placeData cursor m.data).1.zip (m.data.map sizeOfDatum)).map (·.2) =
      m.globals.map (·.size) ++ m.data.map sizeOfDatum := by
    rw [List.map_append, List.map_snd_zip (by simp [hlength]), List.map_snd_zip (by simp [hlength'])]
  have hobjects : objects limits m = (globals.zip (m.globals.map (·.size)) ++
      (Image.placeData cursor m.data).1.zip (m.data.map sizeOfDatum)).map Object.place := by
    simp only [objects, hglobals]
  refine ⟨?_, ?_, fun name => ?_⟩
  · rw [hobjects, List.map_map, ← names_placeGlobals hglobals, ← names_placeData cursor m.data,
      ← List.map_append, ← hfst, List.map_map]
    rfl
  · rw [hobjects, List.map_map]
    exact hsnd
  · show (symbolsOf (globals ++ (Image.placeData cursor m.data).1))[name]? = _
    rw [hobjects, ← hfst, symbolsOf, getElem?_foldl_insert Placement.name Image.address,
      ← List.map_reverse, ← List.map_reverse, List.find?_map, List.find?_map]
    generalize List.reverse _ = xs
    have hpredicate : (fun x : Placement × Nat => x.1.name == name) =
        (fun o : Object => o.name == name) ∘ Object.place := rfl
    simp only [← hpredicate, Function.comp_def]
    cases xs.find? fun x => x.1.name == name with
    | none => simp
    | some x => rfl

end Image

/-! All calls. -/

/-- What holds between any two instructions, above an image that ends at `base`. -/
structure Disciplined (p : Program) (base : Nat) (image : List Object) (c : Configuration) :
    Prop where
  apart : c.blocks.Pairwise fun b b' => b.Apart b'.toExtent
  clear : ∀ b ∈ c.blocks, ∀ o ∈ image, b.Apart o.toExtent
  aligned : ∀ b ∈ c.blocks, b.align ∣ b.start
  inside : ∀ b ∈ c.blocks, base ≤ b.start ∧ b.stop ≤ c.state.stack
  fits : c.state.stack ≤ c.state.memory.size
  depth : c.state.depth = c.live.length
  /-- An allocation that is executed again gives the same address, and nothing else happens. -/
  again : ∀ a ∈ c.live, ∀ b ∈ a.blocks, b.dst < a.routine.temps → ∀ size align,
    next p a.routine a.frame c.state (.alloca b.dst size align) =
      .go ((a.frame.goto (a.frame.pc + 1)).set b.dst (Int64.ofNat b.start)) (tick c.state)

theorem Piled.disciplined {p : Program} {base : Nat} {image : List Object} {c : Configuration}
    (h : Piled base c) (himage : ∀ o ∈ image, o.stop ≤ base) : Disciplined p base image c where
  apart := h.ordered.imp .inr
  clear b hb o ho := .inr ((himage o ho).trans (h.inside b hb).1)
  aligned := h.aligned
  inside := h.inside
  fits := h.fits
  depth := h.depth
  again := by
    intro a ha b hb hdst size align
    have hheld : (a.frame.goto (a.frame.pc + 1)).slots.getD b.dst none = _ := h.held a ha b hb hdst
    simp only [next, step, allocate, hheld]

theorem size_served (p : Program) (s : State) (requests : List (String × List Int64)) :
    (served p s requests).memory.size = s.memory.size := by
  induction requests generalizing s with
  | nil => rfl
  | cons request requests ih =>
    obtain ⟨name, args⟩ := request
    have hcall := size_called p (p.limits.steps - s.steps + 1) s name args
    rw [← call_eq_called] at hcall
    exact (ih _).trans hcall

/-- A call from a machine that waits, with an empty stack. -/
theorem piled_visitedIn {p : Program} (hp : ∀ (name : String) (r : Routine),
    p.routines[name]? = some r → r.Aligned) {s : State} (hfits : s.stack ≤ s.memory.size)
    (hdepth : s.depth = 0) (name : String) (args : List Int64) :
    ∀ c ∈ visitedIn p s name args, Piled s.stack c := by
  have hwaiting : Piled s.stack ⟨[], s⟩ := by
    constructor
    case ordered => exact .nil
    case above => exact Nat.le_refl _
    case fits => exact hfits
    case depth => exact hdepth
    all_goals exact fun x hx => absurd hx List.not_mem_nil
  intro c hc
  unfold visitedIn at hc
  cases hd : dispatch p s name args with
  | answer result =>
    rw [hd] at hc
    obtain rfl := List.mem_singleton.mp hc
    exact hwaiting
  | enter r =>
    rw [hd] at hc
    exact (hwaiting.enter (hp _ _ (routine_of_dispatch hd)) args).visited hp c hc

/-- Whatever was called before, a call passes through configurations in which all blocks of the
live frames are disjoint from one another and from the globals and strings, are aligned as
requested and lie between the base of the stack and its end; and every call, from outside or from a
frame, leaves the stack and the depth that it found. -/
theorem stack_disciplined {m : Module} {limits : Limits} {l : Loaded}
    (hload : load m limits = .ok l)
    (haligned : ∀ f ∈ m.functions, ∀ dst size align,
      .alloca dst size align ∈ f.body → ∃ k, align = 2 ^ k)
    (requests : List (String × List Int64)) :
    (∀ name args, ∀ c ∈ visitedIn l.program (served l.program l.state requests) name args,
      Disciplined l.program l.state.stack (objects limits m) c) ∧
    (served l.program l.state requests).stack = l.state.stack ∧
    (served l.program l.state requests).depth = l.state.depth ∧
    ∀ fuel s name args, (called l.program fuel s name args).2.stack = s.stack ∧
      (called l.program fuel s name args).2.depth = s.depth := by
  obtain ⟨himage, hfits, hzero⟩ := stack_of_load hload
  obtain ⟨hstack, hdepth⟩ := served_restores l.program l.state requests
  have hsize := size_served l.program l.state requests
  have hp : ∀ (name : String) (r : Routine), l.program.routines[name]? = some r → r.Aligned := by
    obtain ⟨placements, memory, stack, hloads⟩ := loads_of_load hload
    obtain rfl := Except.ok.inj ((hloads.load_eq m.functions).symm.trans hload)
    intro name r hr dst size align hmem
    obtain ⟨f, hf, -, rfl⟩ := mem_of_getElem?_routinesOf hr
    exact haligned f hf dst size align (List.mem_toArray.mp hmem)
  refine ⟨fun name args c hc => ?_, hstack, hdepth, called_restores l.program⟩
  have hpiled := piled_visitedIn hp (s := served l.program l.state requests) (by omega)
    (hdepth.trans hzero) name args c hc
  rw [hstack] at hpiled
  exact hpiled.disciplined himage

/-- Two locals of a function, the first of them allocated again. -/
theorem two_locals_stack_disciplined :
    let f : Code.Function :=
      ⟨"f", [], ⟨5⟩, [.alloca 0 3 1, .alloca 1 8 8, .alloca 0 3 1, .ret none], 2⟩
    let m : Module := ⟨[f], [⟨"g", 3, 1, none⟩], [⟨"s", "a"⟩]⟩
    ∃ l, load m ⟨64, 4, 100⟩ = .ok l ∧
      (visitedIn l.program l.state "f" []).map (·.blocks) =
        [[], [⟨⟨32, 3⟩, 0, 1⟩], [⟨⟨40, 8⟩, 1, 8⟩, ⟨⟨32, 3⟩, 0, 1⟩],
          [⟨⟨40, 8⟩, 1, 8⟩, ⟨⟨32, 3⟩, 0, 1⟩], [⟨⟨40, 8⟩, 1, 8⟩, ⟨⟨32, 3⟩, 0, 1⟩]] ∧
      (∀ c ∈ visitedIn l.program l.state "f" [],
        Disciplined l.program l.state.stack (objects ⟨64, 4, 100⟩ m) c) ∧
      (served l.program l.state [("f", [])]).stack = l.state.stack := by
  intro f m
  have hrun : ((load m ⟨64, 4, 100⟩).toOption.map fun l =>
      (visited l.program 101 [] (.enter (Routine.ofFunction f) []) (deeper l.state)).map
        (·.blocks)) =
      some [[], [⟨⟨32, 3⟩, 0, 1⟩], [⟨⟨40, 8⟩, 1, 8⟩, ⟨⟨32, 3⟩, 0, 1⟩],
        [⟨⟨40, 8⟩, 1, 8⟩, ⟨⟨32, 3⟩, 0, 1⟩], [⟨⟨40, 8⟩, 1, 8⟩, ⟨⟨32, 3⟩, 0, 1⟩]] := by
    decide +kernel
  have hpow : ∀ g ∈ m.functions, ∀ dst size align,
      .alloca dst size align ∈ g.body → ∃ k, align = 2 ^ k := by
    intro g hg dst size align hmem
    obtain rfl := List.mem_singleton.mp hg
    simp only [f, List.mem_cons, Inst.alloca.injEq, reduceCtorEq, List.not_mem_nil, or_false] at hmem
    rcases hmem with ⟨-, -, rfl⟩ | ⟨-, -, rfl⟩ | ⟨-, -, rfl⟩
    · exact ⟨0, rfl⟩
    · exact ⟨3, rfl⟩
    · exact ⟨0, rfl⟩
  cases hl : load m ⟨64, 4, 100⟩ with
  | error e =>
    rw [hl] at hrun
    cases hrun
  | ok l =>
    rw [hl] at hrun
    refine ⟨l, rfl, ?_, fun c hc => (stack_disciplined hl hpow []).1 "f" [] c hc,
      (stack_disciplined hl hpow [("f", [])]).2.1⟩
    obtain ⟨placements, memory, stack, hloads⟩ := loads_of_load hl
    obtain rfl := Except.ok.inj ((hloads.load_eq m.functions).symm.trans hl)
    have hf : (routinesOf m.functions)["f"]? = some (Routine.ofFunction f) := by
      rw [getElem?_routinesOf]
      rfl
    have hdispatch : dispatch ⟨⟨64, 4, 100⟩, routinesOf m.functions, symbolsOf placements⟩
        ⟨memory, stack, 0, 0⟩ "f" [] = .enter (Routine.ofFunction f) := by
      simp only [dispatch, callee, hf]
      rfl
    simp only [visitedIn, hdispatch]
    exact Option.some.inj hrun

end MiniC.Machine
