import MiniC.Proofs.Lowering.Copies
import MiniC.Proofs.Lowering.Objects
import MiniC.Proofs.Machine.Stack
import MiniC.Proofs.Simulation.Places
/-!
Parameters. A function begins by giving each of its parameters storage of its own. Main statements: the
machine gets through that code unless the stack is full, and then each struct has the scalars of the
object that was passed, while everything that was there before is as it was; and the storage stays that
of the parameter for as long as the activation lives.
-/
namespace MiniC

open Code (Inst Operand Param Temp)

namespace Machine

/-! Slots that keep their address. -/

/-- An allocation has its address in its slot and in its temporary. -/
structure Homed (t : Temp) (v : Int64) (f : Frame) : Prop where
  slot : f.slots.getD t none = some v
  temp : f.temps.getD t 0 = v

/-- Only an allocation writes the temporary. -/
def Reserves (t : Temp) (i : Inst) : Prop := i.dst? = some t → ∃ size align, i = .alloca t size align

/-- The slot keeps its address in what comes next. -/
def Next.Homes (t : Temp) (v : Int64) : Next → Prop
  | .go g _ => Homed t v g
  | .call dst _ _ g _ => Homed t v g ∧ dst ≠ some t
  | .done _ _ => True

section Slots

variable {p : Program} {r : Routine} {f g : Frame} {s : State} {t u : Temp} {v w : Int64} {i : Inst}

theorem Homed.set (h : Homed t v f) (hne : u ≠ t) (w : Int64) : Homed t v (f.set u w) where
  slot := h.slot
  temp := by
    have htemp := h.temp
    simpa [Frame.set, Array.getD_eq_getD_getElem?, hne] using htemp

theorem Homed.again (h : Homed t v f) : Homed t v (f.set t v) where
  slot := h.slot
  temp := by
    by_cases ht : t < f.temps.size
    · exact getD_set_self f v ht
    · have htemp := h.temp
      simpa [Frame.set, Array.getD_eq_getD_getElem?, ht] using htemp

theorem Homed.setSlot (h : Homed t v f) (hne : u ≠ t) (w : Int64) : Homed t v (f.setSlot u w) where
  slot := by
    have hslot := h.slot
    simpa [Frame.setSlot, Array.getD_eq_getD_getElem?, hne] using hslot
  temp := (h.set hne w).temp

theorem homed_setSlot (hslots : t < f.slots.size) (htemps : t < f.temps.size) (v : Int64) :
    Homed t v (f.setSlot t v) where
  slot := by simp [Frame.setSlot, Array.getD_eq_getD_getElem?, hslots]
  temp := getD_set_self f v htemps

theorem Homed.goto (h : Homed t v f) (pc : Nat) : Homed t v (f.goto pc) := ⟨h.slot, h.temp⟩

theorem Homed.resume {dst : Option Temp} (h : Homed t v f) (hne : dst ≠ some t) (w : Int64) :
    Homed t v (resume f dst w) := by
  cases dst with
  | none => exact h
  | some u => exact h.set (fun heq => hne (congrArg some heq)) w

theorem Homed.assign (h : Homed t v f) (hne : u ≠ t) (x : Except Fault Int64) :
    (assign f s u x).Homes t v := by
  cases x with
  | error e => trivial
  | ok w => exact h.set hne w

theorem Homed.jump (h : Homed t v f) (target : Code.Label) : (jump r f s target).Homes t v := by
  unfold Machine.jump
  split
  · trivial
  · exact h.goto _

theorem Homed.branch (h : Homed t v f) (cond : Operand) (target : Code.Label) (taken : Int64 → Bool) :
    (branch p r f s cond target taken).Homes t v := by
  unfold Machine.branch
  split
  · trivial
  · split
    · exact h.jump target
    · exact h

theorem Homed.storeTo (h : Homed t v f) (base : Operand) (offset : Int64) (src : Operand) (size : Nat) :
    (storeTo p f s base offset src size).Homes t v := by
  unfold Machine.storeTo
  split
  · trivial
  split
  · trivial
  split
  · trivial
  · exact h

theorem Homed.allocate (h : Homed t v f) (size align : Nat) : (allocate f s u size align).Homes t v := by
  unfold Machine.allocate
  by_cases hut : u = t
  · subst hut
    simp only [h.slot]
    exact h.again
  · split
    · exact h.set hut _
    · split
      · trivial
      · exact h.setSlot hut _

/-- One instruction. -/
theorem Homed.next (h : Homed t v f) (hi : Reserves t i) : (next p r f s i).Homes t v := by
  have hgo := h.goto (f.pc + 1)
  have hne {u : Temp} (hdst : i.dst? = some u) (hother : ∀ size align, i ≠ .alloca u size align) :
      u ≠ t := by
    rintro rfl
    obtain ⟨size, align, heq⟩ := hi hdst
    exact hother size align heq
  cases i with
  | label name => exact hgo
  | comment text => exact hgo
  | store base offset src size => exact hgo.storeTo base offset src size
  | jump target => exact hgo.jump target
  | branchIf cond target => exact hgo.branch cond target _
  | branchUnless cond target => exact hgo.branch cond target _
  | call dst name args =>
    simp only [Machine.next, step]
    split
    · trivial
    · refine ⟨hgo, ?_⟩
      rintro rfl
      exact hne rfl (by simp) rfl
  | ret value => cases value <;> trivial
  | alloca dst size align => exact hgo.allocate size align
  | _ => exact hgo.assign (hne rfl (by simp)) _

/-- The running activation is on top of its callers. -/
theorem length_lt_of_visited {fuel : Nat} {callers : List Activation} {a : Activation} {c : Configuration}
    (hc : c ∈ visited p fuel callers a s) : callers.length < c.live.length := by
  induction fuel generalizing callers a s with
  | zero => exact absurd hc List.not_mem_nil
  | succ fuel ih =>
    cases comes_of_visited hc with
    | here heq => exact heq ▸ Nat.lt_succ_self _
    | done hat hn heq => exact heq ▸ Nat.lt_succ_self _
    | go hat hn hc => exact ih hc
    | inside hat hn hd hc => exact (Nat.lt_succ_self _).trans (ih hc)
    | failed hat hn hcalled heq => exact heq ▸ Nat.lt_succ_self _
    | back hat hn hcalled hc => exact ih hc

/-- By induction on the fuel: the slot keeps its address whatever the activation calls. -/
theorem Homed.visited {fuel : Nat} {callers : List Activation} {a b : Activation} {c : Configuration}
    (hbody : ∀ i ∈ a.routine.body, Reserves t i) (h : Homed t v a.frame)
    (hc : c ∈ visited p fuel callers a s) (hb : c.live = b :: callers) :
    b.routine = a.routine ∧ Homed t v b.frame := by
  induction fuel generalizing a s with
  | zero => exact absurd hc List.not_mem_nil
  | succ fuel ih =>
    have hnext {i : Inst} (hat : a.routine.body[a.frame.pc]? = some i) :
        (Machine.next p a.routine a.frame s i).Homes t v :=
      h.next (hbody i (Array.mem_of_getElem? hat))
    cases comes_of_visited hc with
    | here heq =>
      subst heq
      obtain ⟨rfl, -⟩ := List.cons.inj hb
      exact ⟨rfl, h⟩
    | done hat hn heq =>
      subst heq
      obtain ⟨rfl, -⟩ := List.cons.inj hb
      exact ⟨rfl, h⟩
    | @go i f u hat hn hc =>
      have hgo := hnext hat
      rw [hn] at hgo
      exact ih (a := a.advanced s i f) hbody hgo hc
    | inside hat hn hd hc =>
      have hlength := length_lt_of_visited hc
      rw [hb] at hlength
      exact absurd hlength (Nat.lt_irrefl _)
    | failed hat hn hcalled heq =>
      subst heq
      obtain ⟨rfl, -⟩ := List.cons.inj hb
      have hgo := hnext hat
      rw [hn] at hgo
      exact ⟨rfl, hgo.1⟩
    | @back i dst name args f t u v hat hn hcalled hc =>
      have hgo := hnext hat
      rw [hn] at hgo
      exact ih (a := a.moved (Machine.resume f dst v)) hbody (hgo.1.resume hgo.2 v) hc

end Slots

end Machine

namespace Machine

/-- The stack begins above the null guard and ends in memory, the addresses of which are words. -/
structure Poised (m : State) : Prop where
  above : nullGuard ≤ m.stack
  fits : m.stack ≤ m.memory.size
  words : m.memory.size ≤ Layout.maxObjectSize

/-- The address of an object of so many bytes that is there already. -/
structure Lent (m : State) (address : Int64) (here size : Nat) : Prop where
  address : address = Int64.ofNat here
  above : nullGuard ≤ here
  below : here + size ≤ m.stack

/-- The stack is full before the routine calls anything. -/
def Overflows (p : Program) (r : Routine) (f : Frame) (m : State) : Prop :=
  ∃ g n i size u, Reaches p r f m g n ∧ r.body[g.pc]? = some i ∧
    next p r g n i = .done (.error (.stackOverflow size)) u

theorem Overflows.before {p : Program} {r : Routine} {f g : Frame} {m n : State}
    (h : Overflows p r g n) (hfg : Reaches p r f m g n) : Overflows p r f m := by
  obtain ⟨h, u, i, size, w, hpath, hat, hn⟩ := h
  exact ⟨h, u, i, size, w, hfg.trans hpath, hat, hn⟩

end Machine

namespace Simulation

open Evaluation (Room)
open Lowering (Crosses Extends Grows Hosts Lies bind_eq_ok emit_eq_ok pure_eq_ok)
open Machine (Frame Homed Kept Lent Overflows Poised Program Reaches Reserves Routine Transfers next nullGuard
  tick)

/-- Through the code after `s`, with everything as it was that was there before. -/
structure Enters (p : Program) (r : Routine) (s s' : Lowering.State) (f : Frame) (m : Machine.State)
    (g : Frame) (n : Machine.State) : Prop where
  path : Reaches p r f m g n
  pc : g.pc = s'.code.size
  kept : Kept s.temps f g
  slots : ∀ t, t < s.temps ∨ s'.temps ≤ t → g.slots.getD t none = f.slots.getD t none
  count : g.slots.size = f.slots.size
  stack : m.stack ≤ n.stack
  fits : n.stack ≤ n.memory.size
  size : n.memory.size = m.memory.size
  below : ∀ j < m.stack, n.memory.bytes[j]? = m.memory.bytes[j]?

/-- Storage that was allocated after `m`, with the scalars of the object that was at `here`. -/
structure Housed (r : Registry) (ty : TypeId) (t : Temp) (here start : Nat) (m : Machine.State) (g : Frame)
    (n : Machine.State) : Prop where
  home : Homed t (Int64.ofNat start) g
  above : m.stack ≤ start
  below : start + r.sizeOf ty ≤ n.stack
  leaves : ∀ o, r.IsLeaf ty o → n.memory.bytes[start + o]? = m.memory.bytes[here + o]?

section Prologue

variable {p : Program} {ρ : Routine} {r : Registry} {s s' t' : Lowering.State} {f g h : Frame}
  {m n u : Machine.State} {index here start : Nat} {q : Param} {ty : TypeId} {arg : Int64} {t : Temp}

theorem Enters.poised (h : Enters p ρ s s' f m g n) (hm : Poised m) : Poised n where
  above := hm.above.trans h.stack
  fits := h.fits
  words := h.size ▸ hm.words

theorem Enters.trans (hst : Enters p ρ s t' f m g n) (hts : Enters p ρ t' s' g n h u)
    (hle : s.temps ≤ t'.temps) (hle' : t'.temps ≤ s'.temps) : Enters p ρ s s' f m h u where
  path := hst.path.trans hts.path
  pc := hts.pc
  kept := hst.kept.trans hts.kept hle
  slots i hi := by
    rw [hts.slots i (by omega), hst.slots i (by omega)]
  count := hts.count.trans hst.count
  stack := hst.stack.trans hts.stack
  fits := hts.fits
  size := hts.size.trans hst.size
  below j hj := (hts.below j (hj.trans_le hst.stack)).trans (hst.below j hj)

/-- What was received is left alone by what is received later. -/
theorem Housed.enters (hg : Housed r ty t here start m g n) (hgh : Enters p ρ s s' g n h u)
    (ht : t < s.temps) (hc : r.Consistent) : Housed r ty t here start m h u where
  home := ⟨(hgh.slots t (.inl ht)).trans hg.home.slot, (hgh.kept.temps t ht).trans hg.home.temp⟩
  above := hg.above
  below := hg.below.trans hgh.stack
  leaves o ho := by
    have hlt := Lowering.lt_of_isLeaf hc ho
    have hbelow := hg.below
    rw [hgh.below _ (by omega), hg.leaves o ho]

/-- How a parameter is received: it is read, it gets storage, and is moved there. -/
theorem receive_eq_ok {v : Unit} (h : Lowering.receive r index q s = .ok (v, s')) :
    ∃ s₁ s₂ s₃, Lowering.define (.param · index) s = .ok (.temp s.temps, s₁) ∧
      Lowering.allocate r q.ty s₁ = .ok (s.temps + 1, s₂) ∧
      (if r.isStruct q.ty
        then Lowering.Place.copy r ⟨.temp (s.temps + 1), 0, q.ty⟩ ⟨.temp s.temps, 0, q.ty⟩
        else Lowering.Place.store r ⟨.temp (s.temps + 1), 0, q.ty⟩ (.temp s.temps)) s₂ = .ok ((), s₃) ∧
      Lowering.bind q.name (s.temps + 1) s₃ = .ok ((), s') := by
  obtain ⟨incoming, s₁, hparam, h⟩ := bind_eq_ok.mp h
  obtain ⟨slot, s₂, hallocate, h⟩ := bind_eq_ok.mp h
  cases hparam
  cases hallocate
  by_cases hstruct : r.isStruct q.ty
  · simp only [hstruct, if_true] at h ⊢
    obtain ⟨⟨⟩, s₃, hput, hbind⟩ := bind_eq_ok.mp h
    exact ⟨_, _, s₃, rfl, rfl, hput, hbind⟩
  · simp only [hstruct, Bool.false_eq_true, if_false] at h ⊢
    obtain ⟨⟨⟩, s₃, hput, hbind⟩ := bind_eq_ok.mp h
    exact ⟨_, _, s₃, rfl, rfl, hput, hbind⟩

/-- New storage, unless the stack is full. -/
theorem enters_allocate (hs : Lowering.allocate r ty s = .ok (t, s')) (hr : Hosts ρ f s')
    (hpc : f.pc = s.code.size) (hslots : f.slots.size = f.temps.size)
    (hfresh : f.slots.getD s.temps none = none) :
    Overflows p ρ f m ∨ ∃ g n start, Enters p ρ s s' f m g n ∧ n.memory = m.memory ∧
      Homed t (Int64.ofNat start) g ∧ m.stack ≤ start ∧ n.stack = start + r.sizeOf ty := by
  cases hs
  have hat := hr.at_push (s := s) rfl hpc
  have htemps : s.temps < f.temps.size := hr.temps
  cases hreserve : Machine.reserve (tick m) (r.sizeOf ty) (r.alignOf ty) with
  | error e =>
    refine .inl ⟨f, m, _, r.sizeOf ty, tick m, .refl f m, hat, ?_⟩
    have he : e = .stackOverflow (r.sizeOf ty) := by
      unfold Machine.reserve at hreserve
      split at hreserve
      · exact (Except.error.inj hreserve).symm
      · split at hreserve
        · cases hreserve
        · exact (Except.error.inj hreserve).symm
    simp only [next, Machine.step, Machine.allocate, Frame.goto, hfresh, hreserve, he]
  | ok room =>
    obtain ⟨start, stop⟩ := room
    obtain ⟨halign, rfl, hfits⟩ := Machine.reserve_eq_ok hreserve
    have hstack : m.stack ≤ start := Machine.le_of_alignTo halign
    have hn : next p ρ f m (.alloca s.temps (r.sizeOf ty) (r.alignOf ty)) =
        .go ((f.goto (f.pc + 1)).setSlot s.temps (Int64.ofNat start))
          { tick m with stack := start + r.sizeOf ty } := by
      simp only [next, Machine.step, Machine.allocate, Frame.goto, hfresh, hreserve]
    refine .inr ⟨_, _, start, ⟨.single hat hn, ?_, ?_, fun i hi => ?_, ?_, ?_, hfits, rfl, fun _ _ => rfl⟩,
      rfl, ?_, hstack, rfl⟩
    · simp [Frame.setSlot, Frame.goto, hpc]
    · exact (Machine.kept_goto _ f _).trans (kept_setSlot _ _ (Nat.le_refl s.temps)) (Nat.le_refl _)
    · have hne : s.temps ≠ i := by
        rintro rfl
        exact hi.elim (Nat.lt_irrefl _) (Nat.not_succ_le_self _)
      simp [Frame.setSlot, Frame.goto, Array.getD_eq_getD_getElem?, hne]
    · simp [Frame.setSlot, Frame.goto]
    · exact hstack.trans (Nat.le_add_right _ _)
    · exact Machine.homed_setSlot (f := f.goto (f.pc + 1)) (hslots.symm ▸ htemps) htemps _

/-- The argument is moved into the storage. -/
theorem crosses_put (hc : r.Consistent) (hs : (if r.isStruct ty
      then Lowering.Place.copy r ⟨.temp t, 0, ty⟩ ⟨.temp index, 0, ty⟩
      else Lowering.Place.store r ⟨.temp t, 0, ty⟩ (.temp index)) s = .ok ((), s'))
    (hr : Hosts ρ f s') (hpc : f.pc = s.code.size) (ht : t < s.temps) (hindex : index < s.temps)
    (hhome : f.temps.getD t 0 = Int64.ofNat start) (hroom : Room m.memory start (r.sizeOf ty))
    (hlent : r.isStruct ty = true → f.temps.getD index 0 = Int64.ofNat here ∧
      Room m.memory here (r.sizeOf ty) ∧ here + r.sizeOf ty ≤ start) :
    ∃ g n, Crosses p ρ s s' f m g n ∧ n.memory.size = m.memory.size ∧
      (∀ j < start, n.memory.bytes[j]? = m.memory.bytes[j]?) ∧
      (r.isStruct ty = true → ∀ o, r.IsLeaf ty o → n.memory.bytes[start + o]? = m.memory.bytes[here + o]?) := by
  have hlies : Lies p s.temps ⟨.temp t, 0, ty⟩ f start :=
    ⟨Int64.ofNat start, congrArg Except.ok hhome, ht, Int64.add_zero _⟩
  by_cases hstruct : r.isStruct ty = true
  · rw [if_pos hstruct] at hs
    obtain ⟨hvalue, hfrom, hapart⟩ := hlent hstruct
    have hsource : Lies p s.temps ⟨.temp index, 0, ty⟩ f here :=
      ⟨Int64.ofNat here, congrArg Except.ok hvalue, hindex, Int64.add_zero _⟩
    obtain ⟨g, n, hcrosses, hmoved⟩ := Lowering.crosses_copy hc hs hr hpc hlies hsource hroom hfrom
      (.inr (.inl hapart))
    refine ⟨g, n, hcrosses, hmoved.size, fun j hj => hmoved.kept j fun o _ heq => ?_, fun _ => hmoved.moved⟩
    omega
  · rw [if_neg hstruct] at hs
    obtain ⟨access, s₁, hneed, hemit⟩ := bind_eq_ok.mp hs
    obtain ⟨haccess, rfl⟩ := Lowering.need_eq_ok.mp hneed
    have hsize := (hc.access_size haccess).1
    obtain ⟨b, hb, haddress⟩ := hlies.address (s := s) 0
    obtain ⟨g, n, hcrosses, hmemory⟩ := Lowering.crosses_store (k := 0) hemit hr hpc hb rfl
      (by simpa using haddress) hroom (by rw [Nat.zero_add]; exact hsize.le)
    refine ⟨g, n, hcrosses, by rw [hmemory, Machine.Memory.size_put], fun j hj => ?_, fun h => absurd h hstruct⟩
    rw [hmemory, Machine.Memory.put, Bytes.writeWord_eq]
    exact Bytes.getElem?_writeList_of_outside (.inl (by rwa [Nat.add_zero]))

theorem enters_receive {v : Unit} (hc : r.Consistent) (hs : Lowering.receive r index q s = .ok (v, s'))
    (hr : Hosts ρ f s') (hpc : f.pc = s.code.size) (hslots : f.slots.size = f.temps.size)
    (hfresh : ∀ t, s.temps ≤ t → f.slots.getD t none = none) (harg : f.args[index]? = some arg)
    (hm : Poised m) (hlent : r.isStruct q.ty = true → Lent m arg here (r.sizeOf q.ty)) :
    Overflows p ρ f m ∨ ∃ g n, Enters p ρ s s' f m g n ∧
      (r.isStruct q.ty = true → ∃ start, Housed r q.ty (s.temps + 1) here start m g n) := by
  obtain ⟨s₁, s₂, s₃, hparam, hallocate, hput, hbind⟩ := receive_eq_ok hs
  have h₁ := Grows.extends_of (.define _) hparam
  have h₂ := Grows.extends_of (Lowering.grows_allocate r q.ty) hallocate
  have h₃ := Grows.extends_of (.ite (Lowering.grows_copy r _ _) (Lowering.grows_store r _ _)) hput
  have htemps₁ : s₁.temps = s.temps + 1 := by cases hparam; rfl
  have htemps₂ : s₂.temps = s.temps + 2 := by cases hparam; cases hallocate; rfl
  have hr₃ : Hosts ρ f s₃ := by cases hbind; exact ⟨hr.code, hr.temps⟩
  have hincoming : Lowering.Gives p ρ s s₁ f m (.temp s.temps) (.ok arg) := by
    refine Lowering.gives_define hparam ((hr₃.grows h₃).grows h₂) hpc ?_
    simp only [next, Machine.step, Frame.goto, harg]
  obtain ⟨g₁, n₁, harrives, hvalue, -⟩ := hincoming
  have hr₂ := (hr₃.kept harrives.kept).grows h₃
  have hslots₁ : g₁.slots.size = g₁.temps.size := by
    rw [harrives.slots, harrives.kept.size, hslots]
  rcases enters_allocate (m := n₁) (p := p) hallocate hr₂ harrives.pc hslots₁
    (by rw [harrives.slots]; exact hfresh _ (by omega)) with hfull | hplaced
  · exact .inl (hfull.before harrives.path)
  obtain ⟨g₂, n₂, start, henters, hmemory₂, hhome, hstart, hstop⟩ := hplaced
  have hmemory : n₂.memory = m.memory := hmemory₂.trans harrives.memory
  have hkept : Kept s.temps f g₂ := harrives.kept.trans henters.kept h₁.temps
  rw [harrives.stack] at hstart
  have hfits := henters.fits
  rw [hmemory] at hfits
  have hbefore := hm.fits
  have hslot : s.temps + 1 < s₂.temps := by omega
  have hold : s.temps < s₂.temps := by omega
  obtain ⟨g, n, hcrosses, hsize, hbelow, hleaves⟩ := crosses_put (p := p) hc hput (hr₃.kept hkept)
    henters.pc hslot hold hhome.temp
    (by rw [hmemory]; exact ⟨hm.above.trans hstart, hstop ▸ hfits, hm.words⟩) (fun hstruct => by
      obtain ⟨haddress, habove, hlt⟩ := hlent hstruct
      refine ⟨?_, by rw [hmemory]; exact ⟨habove, hlt.trans hbefore, hm.words⟩, hlt.trans hstart⟩
      rw [henters.kept.temps _ (htemps₁ ▸ Nat.lt_succ_self _), ← haddress]
      exact Except.ok.inj hvalue)
  rw [hmemory] at hsize hbelow hleaves
  have hslots₃ : g.slots = g₂.slots := hcrosses.slots
  have hstack : n.stack = start + r.sizeOf q.ty := hcrosses.stack.trans hstop
  have hend : s'.code = s₃.code ∧ s'.temps = s₃.temps := by cases hbind; exact ⟨rfl, rfl⟩
  have htemps₃ := h₃.temps
  refine .inr ⟨g, n, ?_, fun hstruct => ⟨start, ?_⟩⟩
  · constructor
    case path => exact harrives.path.trans (henters.path.trans hcrosses.path)
    case pc => rw [hend.1, hcrosses.pc]
    case kept => exact hkept.trans hcrosses.kept (by omega)
    case slots =>
      intro i hi
      rw [hslots₃, henters.slots i (by omega), harrives.slots]
    case count => rw [hslots₃, henters.count, harrives.slots]
    case stack => omega
    case fits => omega
    case size => exact hsize
    case below => exact fun j hj => hbelow j (hj.trans_le hstart)
  · exact ⟨⟨hslots₃ ▸ hhome.slot, (hcrosses.kept.temps _ (by omega)).trans hhome.temp⟩, hstart, hstack.ge,
      hleaves hstruct⟩

/-- The slots of the parameters are bound to their names, and nothing but an allocation writes them. -/
structure Bound (qs : List Param) (ts : List Temp) (s s' : Lowering.State) : Prop where
  length : ts.length = qs.length
  slots : ∀ scope outer, s.slots = scope :: outer →
    s'.slots = (((qs.map (·.name)).zip ts).reverse ++ scope) :: outer
  inside : ∀ t ∈ ts, s.temps ≤ t ∧ t < s'.temps
  code : ∃ new, s'.code.toList = s.code.toList ++ new ∧ ∀ i ∈ new,
    (∀ t, i.dst? = some t → s.temps ≤ t ∧ t < s'.temps) ∧ ∀ t ∈ ts, Reserves t i

theorem bound_receive {v : Unit} (hs : Lowering.receive r index q s = .ok (v, s')) :
    Bound [q] [s.temps + 1] s s' := by
  obtain ⟨s₁, s₂, s₃, hparam, hallocate, hput, hbind⟩ := receive_eq_ok hs
  have hspares : Lowering.Spares ∅ (if r.isStruct q.ty
      then Lowering.Place.copy r ⟨.temp (s.temps + 1), 0, q.ty⟩ ⟨.temp s.temps, 0, q.ty⟩
      else Lowering.Place.store r ⟨.temp (s.temps + 1), 0, q.ty⟩ (.temp s.temps)) :=
    Lowering.Closed.ite (P := Lowering.Spares ∅) ((Lowering.closed_spares ∅).copy r _ _)
      ((Lowering.closed_spares ∅).store r _ _)
  have h₃ := Grows.extends_of (.ite (Lowering.grows_copy r _ _) (Lowering.grows_store r _ _)) hput
  obtain ⟨htemps, new, hcode, hnew⟩ := hspares _ _ _ hput
  have hslots := h₃.slots
  cases hparam
  cases hallocate
  cases hbind
  simp only [id] at hslots htemps hcode hnew
  refine ⟨rfl, fun scope outer h => ?_, ?_, ?_⟩
  · simp [hslots, h]
  · intro t ht
    obtain rfl := List.mem_singleton.mp ht
    exact ⟨Nat.le_succ _, htemps⟩
  · refine ⟨.param s.temps index :: .alloca (s.temps + 1) (r.sizeOf q.ty) (r.alignOf q.ty) :: new, ?_, ?_⟩
    · simp [hcode]
    intro i hi
    rcases List.mem_cons.mp hi with rfl | hi
    · refine ⟨fun t ht => ?_, fun t ht hdst => ?_⟩
      · obtain rfl := Option.some.inj ht
        exact ⟨Nat.le_refl _, (Nat.lt_succ_of_lt (Nat.lt_succ_self _)).trans_le htemps⟩
      · obtain rfl := List.mem_singleton.mp ht
        exact absurd (Option.some.inj hdst) (Nat.lt_succ_self _).ne
    rcases List.mem_cons.mp hi with rfl | hi
    · refine ⟨fun t ht => ?_, fun t ht _ => ?_⟩
      · obtain rfl := Option.some.inj ht
        exact ⟨Nat.le_succ _, htemps⟩
      · obtain rfl := List.mem_singleton.mp ht
        exact ⟨_, _, rfl⟩
    have hwritten (t : Temp) (ht : i.dst? = some t) : s.temps + 1 < t ∧ t < s₃.temps :=
      (hnew i hi t ht).resolve_left (Set.notMem_empty t)
    refine ⟨fun t ht => ?_, fun t ht hdst => ?_⟩
    · obtain ⟨hlt, hlt'⟩ := hwritten t ht
      exact ⟨(Nat.le_succ _).trans hlt.le, hlt'⟩
    · obtain rfl := List.mem_singleton.mp ht
      exact absurd (hwritten _ hdst).1 (Nat.lt_irrefl _)

theorem Bound.trans {qs qs' : List Param} {ts ts' : List Temp} (h : Bound qs ts s t')
    (h' : Bound qs' ts' t' s') (hle : s.temps ≤ t'.temps) (hle' : t'.temps ≤ s'.temps) :
    Bound (qs ++ qs') (ts ++ ts') s s' where
  length := by rw [List.length_append, List.length_append, h.length, h'.length]
  slots scope outer hs := by
    have hnames : (qs.map (·.name)).length = ts.length := by rw [List.length_map, h.length]
    rw [h'.slots _ _ (h.slots scope outer hs), List.map_append, List.zip_append hnames,
      List.reverse_append, List.append_assoc]
  inside t ht := by
    rcases List.mem_append.mp ht with ht | ht
    · exact (h.inside t ht).imp_right fun hlt => hlt.trans_le hle'
    · exact (h'.inside t ht).imp_left hle.trans
  code := by
    obtain ⟨new, hcode, hnew⟩ := h.code
    obtain ⟨new', hcode', hnew'⟩ := h'.code
    refine ⟨new ++ new', by rw [hcode', hcode, List.append_assoc], fun i hi => ?_⟩
    -- Either part writes its own temporaries only, so no slot of the other part.
    rcases List.mem_append.mp hi with hi | hi
    · obtain ⟨hwritten, hreserves⟩ := hnew i hi
      refine ⟨fun t ht => (hwritten t ht).imp_right fun hlt => hlt.trans_le hle', fun t ht hdst => ?_⟩
      refine (List.mem_append.mp ht).elim (fun ht => hreserves t ht hdst) fun ht => ?_
      exact absurd (h'.inside t ht).1 (hwritten t hdst).2.not_ge
    · obtain ⟨hwritten, hreserves⟩ := hnew' i hi
      refine ⟨fun t ht => (hwritten t ht).imp_left hle.trans, fun t ht hdst => ?_⟩
      refine (List.mem_append.mp ht).elim (fun ht => ?_) fun ht => hreserves t ht hdst
      exact absurd (h.inside t ht).2 (hwritten t hdst).1.not_gt

/-- The arguments of struct type are the addresses of objects that are there. -/
def Lends (r : Registry) (qs : List Param) (args : List Int64) (here : Nat → Nat) (m : Machine.State) :
    Prop :=
  ∀ i q, qs[i]? = some q → r.isStruct q.ty = true →
    ∃ arg, args[i]? = some arg ∧ Lent m arg (here i) (r.sizeOf q.ty)

/-- Each parameter of struct type has storage of its own, with the scalars of its argument. -/
def Receives (r : Registry) (qs : List Param) (ts : List Temp) (here : Nat → Nat) (m : Machine.State)
    (g : Frame) (n : Machine.State) : Prop :=
  ∀ i q t, qs[i]? = some q → ts[i]? = some t → r.isStruct q.ty = true →
    ∃ start, Housed r q.ty t (here i) start m g n

/-- What was lent before is lent still. -/
theorem Housed.since (hh : Housed r ty t here start n h u) (hmn : Enters p ρ s s' f m g n)
    (hc : r.Consistent) (hlent : here + r.sizeOf ty ≤ m.stack) : Housed r ty t here start m h u where
  home := hh.home
  above := hmn.stack.trans hh.above
  below := hh.below
  leaves o ho := by
    have hlt := Lowering.lt_of_isLeaf hc ho
    rw [hh.leaves o ho, hmn.below _ (by omega)]

/-- By induction on the parameters: each is received after those before it, above them on the stack. -/
theorem enters_receiveAll {v : Unit} {qs : List Param} (hc : r.Consistent)
    (hs : Lowering.receiveAll r index qs s = .ok (v, s')) :
    ∃ ts, Bound qs ts s s' ∧ s.temps ≤ s'.temps ∧
      ∀ {p : Program} {ρ : Routine} {f : Frame} {m : Machine.State} {here : Nat → Nat}, Hosts ρ f s' →
        f.pc = s.code.size → f.slots.size = f.temps.size →
        (∀ t, s.temps ≤ t → f.slots.getD t none = none) → f.args.length = index + qs.length →
        Poised m → Lends r qs (f.args.drop index) here m →
        Overflows p ρ f m ∨ ∃ g n, Enters p ρ s s' f m g n ∧ Receives r qs ts here m g n := by
  induction qs generalizing index s with
  | nil =>
    obtain ⟨-, rfl⟩ := pure_eq_ok.mp hs
    refine ⟨[], ⟨rfl, fun _ _ h => h, nofun, [], by simp, nofun⟩, Nat.le_refl _, ?_⟩
    intro p ρ f m here _ hpc _ _ _ hm _
    exact .inr ⟨f, m, ⟨.refl f m, hpc, .refl _ f, fun _ _ => rfl, rfl, Nat.le_refl _, hm.fits, rfl,
      fun _ _ => rfl⟩, fun i q t hq => by cases hq⟩
  | cons q qs ih =>
    obtain ⟨⟨⟩, t', hreceive, hs⟩ := bind_eq_ok.mp hs
    obtain ⟨ts, hbound, hle', hrest⟩ := ih hs
    have hfirst := bound_receive hreceive
    have hle : s.temps ≤ t'.temps := by
      obtain ⟨hle, hlt⟩ := hfirst.inside _ (List.mem_singleton.mpr rfl)
      exact hle.trans hlt.le
    have hextends := Lowering.grows_receiveAll (index + 1) qs _ _ _ hs
    refine ⟨(s.temps + 1) :: ts, hfirst.trans hbound hle hle', hle.trans hle', ?_⟩
    intro p ρ f m here hr hpc hslots hfresh hlength hm hlends
    have hindex : index < f.args.length := by
      rw [hlength, List.length_cons]
      omega
    have hdrop := List.drop_eq_getElem_cons hindex
    rw [hdrop] at hlends
    have hlent (hstruct : r.isStruct q.ty = true) : Lent m f.args[index] (here 0) (r.sizeOf q.ty) := by
      obtain ⟨arg, harg, hlent⟩ := hlends 0 q rfl hstruct
      exact Option.some.inj harg ▸ hlent
    rcases enters_receive (p := p) hc hreceive (hr.grows hextends) hpc hslots hfresh
      (List.getElem?_eq_getElem hindex) hm hlent with hfull | ⟨g, n, henters, hhoused⟩
    · exact .inl hfull
    have hothers : Lends r qs (g.args.drop (index + 1)) (fun i => here (i + 1)) n := by
      intro i q hq hstruct
      obtain ⟨arg, harg, hlent⟩ := hlends (i + 1) q hq hstruct
      exact ⟨arg, henters.kept.args ▸ harg, hlent.address, hlent.above, hlent.below.trans henters.stack⟩
    rcases hrest (hr.kept henters.kept) henters.pc (by rw [henters.count, hslots, henters.kept.size])
      (fun t ht => (henters.slots t (.inr ht)).trans (hfresh t (hle.trans ht)))
      (by rw [henters.kept.args, hlength, List.length_cons]; omega) (henters.poised hm) hothers
      with hfull | ⟨h, u, hlater, hreceives⟩
    · exact .inl (hfull.before henters.path)
    refine .inr ⟨h, u, henters.trans hlater hle hle', fun i q t hq ht hstruct => ?_⟩
    cases i with
    | zero =>
      obtain rfl := Option.some.inj hq
      obtain rfl := Option.some.inj ht
      obtain ⟨start, hhoused⟩ := hhoused hstruct
      exact ⟨start, hhoused.enters hlater (hfirst.inside _ (List.mem_singleton.mpr rfl)).2 hc⟩
    | succ i =>
      obtain ⟨start, hhoused⟩ := hreceives i q t hq ht hstruct
      obtain ⟨arg, -, hlent⟩ := hlends (i + 1) q hq hstruct
      exact ⟨start, hhoused.since henters hc hlent.below⟩

end Prologue

end Simulation
end MiniC
