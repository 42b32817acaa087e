import MiniC.Proofs.Simulation.Running
/-!
Code for places and for storage. Main statements: the code for an address, for a load and for stores
does what evaluation does at that address, and storage for a local is where its home is.
-/
namespace MiniC.Simulation

open Code (Inst Label Operand Temp)
open Evaluation (Action Denoted Exit Scopes Store)
open Lowering (Agrees Extends Gives Grows Lowered Place allocations bind_eq_ok define_eq_ok
  emit_eq_ok need_eq_ok pure_eq_ok)
open Machine (Fault Frame Kept next tick)

/-- A place at an address. -/
structure Locates (M : Setting) (n : Nat) (p : Place) (address : Int64) (g : Frame) : Prop where
  base : ∃ b, Yields M n p.base b g ∧ b + p.offset = address

/-- What code yields, and what is evaluated. -/
def Denotes (M : Setting) (n : Nat) : Lowered → Denoted → Frame → Prop
  | .place p, .object ty address, g => p.ty = ty ∧ Locates M n p address g
  | .value v, .value w, g => Yields M n v w g
  | _, _, _ => False

section Places

variable {M : Setting} {targets : Option (Label × Label)} {scopes : Scopes} {n n' : Nat}
  {s s' : Lowering.State} {st : Store} {f g : Frame} {m : Machine.State} {p : Place}
  {a v : Operand} {address y : Int64} {r : Registry} {ty : TypeId}

theorem locates_of_yields (h : Yields M n v y f) (offset : Int64) (ty : TypeId) :
    Locates M n ⟨v, offset, ty⟩ (y + offset) f :=
  ⟨y, h, rfl⟩

theorem Locates.further (h : Locates M n p address f) (distance : Int64) (ty : TypeId) :
    Locates M n (p.further distance ty) (address + distance) f := by
  obtain ⟨b, hb, rfl⟩ := h.base
  refine ⟨b, hb, ?_⟩
  simp only [Place.further, Int64.add_assoc]

theorem Locates.kept (h : Locates M n p address f) (hfg : Kept n f g) (hn : n ≤ n') :
    Locates M n' p address g := by
  obtain ⟨b, hb, haddress⟩ := h.base
  exact ⟨b, hb.kept hfg hn, haddress⟩

theorem Denotes.kept {l : Lowered} {d : Denoted} (h : Denotes M n l d f) (hfg : Kept n f g)
    (hn : n ≤ n') : Denotes M n' l d g := by
  cases l with
  | place p =>
    cases d with
    | object ty address => exact ⟨h.1, h.2.kept hfg hn⟩
    | value w => exact h
  | value v =>
    cases d with
    | object ty address => exact h
    | value w => exact Yields.kept h hfg hn

/-! Addresses and loads. -/

theorem gives_address (hs : p.address s = .ok (v, s')) (hM : M.Hosts s') (hst : Stands M st f m)
    (hpc : f.pc = s.code.size) (hp : Locates M s.temps p address f) :
    Gives M.program M.routine s s' f m v (.ok address) := by
  obtain ⟨b, hb, rfl⟩ := hp.base
  unfold Place.address at hs
  by_cases hzero : p.offset = 0
  · rw [if_pos hzero] at hs
    obtain ⟨rfl, rfl⟩ := pure_eq_ok.mp hs
    rw [hzero, Int64.add_zero]
    exact Lowering.gives_refl hpc hb.value hb.below
  rw [if_neg hzero] at hs
  have hadd (hs : Lowering.define (.binary · .add p.base (.const p.offset)) s = .ok (v, s')) :
      Gives M.program M.routine s s' f m v (.ok (b + p.offset)) :=
    Lowering.gives_binary hs (hM.straight hst) hpc hb.value rfl
  cases hbase : p.base with
  | const k =>
    rw [hbase] at hs hb
    obtain ⟨rfl, rfl⟩ := pure_eq_ok.mp hs
    cases hb.value
    exact Lowering.gives_refl hpc rfl trivial
  | temp k =>
    rw [hbase] at hs hadd
    exact hadd hs
  | data k =>
    rw [hbase] at hs hadd
    exact hadd hs

theorem meets_load (hs : p.load r s = .ok (v, s')) (hM : M.Hosts s') (hst : Stands M st f m)
    (hpc : f.pc = s.code.size) (hp : Locates M s.temps p address f) :
    Meets M targets s.temps f m st (Lands s' (Yields M s'.temps v))
      (Evaluation.load r p.ty address st) := by
  unfold Place.load at hs
  unfold Evaluation.load
  by_cases hwhole : (r.isArray p.ty || r.isStruct p.ty) = true
  · rw [if_pos hwhole] at hs ⊢
    exact meets_lift _ hst (gives_address hs hM hst hpc hp)
  rw [if_neg hwhole] at hs ⊢
  cases haccess : r.access? p.ty with
  | none =>
    simp only [haccess] at hs ⊢
    obtain ⟨rfl, rfl⟩ := pure_eq_ok.mp hs
    exact meets_pure hst hpc (yields_const M _ 0 f)
  | some access =>
    simp only [haccess] at hs ⊢
    obtain ⟨b, hb, rfl⟩ := hp.base
    have hload : Gives M.program M.routine s s' f m v
        (st.memory.load (b + p.offset) access.size access.signed) := by
      refine Lowering.gives_define hs (hM.straight hst) hpc ?_
      simp only [next, Machine.step, Machine.value_goto, hb.value, ← hst.memory]
      rfl
    exact meets_lift _ hst hload

/-! Stores. -/

/-- A store of an operand to a place. -/
theorem meets_write (targets : Option (Label × Label)) {base : Operand} {offset : Int64} {size : Nat}
    {b : Int64}
    (hs : Lowering.emit (.store base offset v size) s = .ok ((), s')) (hM : M.Hosts s')
    (hat : At M scopes s st f m) (hb : Yields M s.temps base b f) (hv : Yields M s.temps v y f) :
    Meets M targets s.temps f m st (Lands s' fun _ _ => True)
      (Evaluation.write (b + offset) size y st) := by
  obtain rfl := emit_eq_ok.mp hs
  have hpush := hM.at_push (s := s) rfl
  rw [← hat.pc] at hpush
  have hlocated : (tick m).memory.locate (b + offset) size = st.memory.locate (b + offset) size := by
    rw [← hat.memory]
    rfl
  cases hlocate : st.memory.locate (b + offset) size with
  | error e =>
    have hnext : next M.program M.routine f m (.store base offset v size) =
        .done (.error e) (tick m) := by
      simp only [next, Machine.step, Machine.storeTo, Machine.value_goto, hb.value, hv.value, hlocated,
        hlocate]
    have hwrite : Evaluation.write (b + offset) size y st = .error (.fault e) st := by
      show EStateM.bind _ _ st = _
      unfold EStateM.bind Machine.Memory.store
      simp only [hlocate]
      rfl
    rw [hwrite]
    exact ⟨tick m, .done hpush trivial hnext, hat.memory⟩
  | ok start =>
    have hnext : next M.program M.routine f m (.store base offset v size) =
        .go (f.goto (f.pc + 1)) { tick m with memory := st.memory.put start size y } := by
      simp only [next, Machine.step, Machine.storeTo, Machine.value_goto, hb.value, hv.value, hlocated,
        hlocate]
      rw [← hat.memory]
      rfl
    have hwrite : Evaluation.write (b + offset) size y st =
        .ok () { st with memory := st.memory.put start size y } := by
      show EStateM.bind _ _ st = _
      unfold EStateM.bind Machine.Memory.store
      simp only [hlocate]
      rfl
    rw [hwrite]
    refine ⟨_, _, ⟨.single hpush hnext, Machine.kept_goto _ f _, ?_, .refl st⟩, ?_, trivial⟩
    · exact ⟨rfl, hat.stack, hat.depth, hat.temps, hat.slots, hat.homes,
        Nat.le_trans hat.steps (Nat.add_le_add_right (Nat.le_succ _) _)⟩
    · simp [Frame.goto, hat.pc]

theorem extends_emit {i : Inst} (hs : Lowering.emit i s = .ok ((), s')) : Extends id s s' :=
  Grows.extends_of (.emit i) hs

theorem meets_store (hs : p.store r v s = .ok ((), s')) (hM : M.Hosts s')
    (hat : At M scopes s st f m) (hp : Locates M s.temps p address f)
    (hv : Yields M s.temps v y f) :
    Meets M targets s.temps f m st (Lands s' fun _ _ => True)
      (Evaluation.store r p.ty address y st) := by
  obtain ⟨access, t, hneed, hemit⟩ := bind_eq_ok.mp hs
  obtain ⟨haccess, rfl⟩ := need_eq_ok.mp hneed
  obtain ⟨b, hb, rfl⟩ := hp.base
  unfold Evaluation.store
  rw [haccess]
  exact meets_write _ hemit hM hat hb hv

theorem meets_copyMoves {target source : Place} {there here : Int64} {ms : List ScalarMove}
    (hs : Place.copyMoves target source ms s = .ok ((), s')) (hM : M.Hosts s')
    (hat : At M scopes s st f m) (htarget : Locates M s.temps target there f)
    (hsource : Locates M s.temps source here f) :
    Meets M targets s.temps f m st (Lands s' fun _ _ => True)
      (Evaluation.copyMoves there here ms st) := by
  induction ms generalizing s st f m with
  | nil =>
    obtain ⟨-, rfl⟩ := pure_eq_ok.mp hs
    exact meets_pure hat.toStands hat.pc trivial
  | cons move ms ih =>
    obtain ⟨v, t, hload, hs⟩ := bind_eq_ok.mp hs
    obtain ⟨⟨⟩, t', hstore, hs⟩ := bind_eq_ok.mp hs
    have hst := Grows.extends_of (.define _) hload
    have htt := extends_emit hstore
    have hts := Grows.extends_of (Lowering.grows_copyMoves _ _ _) hs
    obtain ⟨b, hb, rfl⟩ := hsource.base
    obtain ⟨b', hb', rfl⟩ := htarget.base
    have hread : Gives M.program M.routine s t f m v (st.memory.load
        (b + source.offset + Int64.ofNat move.offset) move.access.size move.access.signed) := by
      refine Lowering.gives_define hload (((hM.before hts).before htt).straight hat.toStands)
        hat.pc ?_
      simp only [next, Machine.step, Machine.value_goto, hb.value, ← hat.memory,
        Int64.add_assoc]
      rfl
    refine (meets_lift _ hat.toStands hread).seq hat hst.temps fun y st₁ g u hat₁ hkept hv => ?_
    have hwrite := meets_write targets hstore (hM.before hts) hat₁
      (hb'.kept hkept hst.temps) hv
    rw [← Int64.add_assoc] at hwrite
    refine hwrite.seq hat₁ htt.temps fun _ st₂ g' u' hat₂ hkept' _ => ?_
    have hkept₂ := hkept.trans hkept' hst.temps
    exact ih hs hat₂ (htarget.kept hkept₂ (Nat.le_trans hst.temps htt.temps))
      (hsource.kept hkept₂ (Nat.le_trans hst.temps htt.temps))

theorem meets_zeroMoves {ms : List ScalarMove} (hs : Place.zeroMoves p ms s = .ok ((), s'))
    (hM : M.Hosts s') (hat : At M scopes s st f m) (hp : Locates M s.temps p address f) :
    Meets M targets s.temps f m st (Lands s' fun _ _ => True)
      (Evaluation.zeroMoves address ms st) := by
  induction ms generalizing s st f m with
  | nil =>
    obtain ⟨-, rfl⟩ := pure_eq_ok.mp hs
    exact meets_pure hat.toStands hat.pc trivial
  | cons move ms ih =>
    obtain ⟨⟨⟩, t, hstore, hs⟩ := bind_eq_ok.mp hs
    have hst := extends_emit hstore
    have hts := Grows.extends_of (Lowering.grows_zeroMoves _ _) hs
    obtain ⟨b, hb, rfl⟩ := hp.base
    have hwrite := meets_write targets hstore (hM.before hts) hat hb
      (yields_const M _ 0 f)
    rw [← Int64.add_assoc] at hwrite
    refine hwrite.seq hat hst.temps fun _ st₁ g u hat₁ hkept _ => ?_
    exact ih hs hat₁ (hp.kept hkept hst.temps)

theorem meets_storeBytes {bs : List UInt8} (hs : p.storeBytes bs s = .ok ((), s'))
    (hM : M.Hosts s') (hat : At M scopes s st f m) (hp : Locates M s.temps p address f) :
    Meets M targets s.temps f m st (Lands s' fun _ _ => True)
      (Evaluation.storeBytes address bs st) := by
  induction bs generalizing s st f m p address with
  | nil =>
    obtain ⟨-, rfl⟩ := pure_eq_ok.mp hs
    exact meets_pure hat.toStands hat.pc trivial
  | cons b bs ih =>
    obtain ⟨⟨⟩, t, hstore, hs⟩ := bind_eq_ok.mp hs
    have hst := extends_emit hstore
    have hts := Grows.extends_of (Lowering.grows_storeBytes _ _) hs
    obtain ⟨a, ha, rfl⟩ := hp.base
    have hwrite := meets_write targets hstore (hM.before hts) hat ha
      (yields_const M _ _ f)
    refine hwrite.seq hat hst.temps fun _ st₁ g u hat₁ hkept _ => ?_
    exact ih hs hat₁ ((hp.kept hkept hst.temps).further 1 p.ty)

/-! Storage for locals. -/

theorem Held.declare (name : String) {j : Nat} {t : Temp} (h : Held M scopes n st f)
    (hslot : M.slots[j]? = some t) (ht : t < n) (hhome : st.homes j = some address)
    (hvalue : f.temps.getD t 0 = address) : Held M (scopes.declare name j) n st f := by
  cases scopes with
  | nil => exact h
  | cons scope outer =>
    intro scope' hscope' x hx
    rcases List.mem_cons.mp hscope' with rfl | hscope'
    · rcases List.mem_cons.mp hx with rfl | hx
      · exact ⟨t, address, hslot, ht, hhome, hvalue⟩
      · exact h scope (List.mem_cons_self ..) x hx
    · exact h scope' (List.mem_cons_of_mem _ hscope') x hx

theorem getD_setIfInBounds {α : Type} (xs : Array α) (t t' : Nat) (x d : α) (ht : t < xs.size) :
    (xs.setIfInBounds t x).getD t' d = if t = t' then x else xs.getD t' d := by
  by_cases h : t = t'
  · subst h
    simp [Array.getD_eq_getD_getElem?, ht]
  · simp [Array.getD_eq_getD_getElem?, h]

theorem kept_setSlot (f : Frame) {t : Temp} (address : Int64) (h : n ≤ t) :
    Kept n f (f.setSlot t address) where
  args := rfl
  size := by simp [Frame.setSlot]
  temps i hi := (Machine.kept_set f address h).temps i hi

/-- Storage that is new: the home of the local is in the slot from now on. -/
theorem Stands.reside {j t start stop : Nat} {u : Machine.State} (hst : Stands M st f m)
    (hslots : M.slots.Nodup) (hslot : M.slots[j]? = some t) (ht : t < M.routine.temps)
    (hu : u = ⟨st.memory, stop, m.steps + 1, m.depth⟩) (hfg : g = f.setSlot t (Int64.ofNat start)) :
    Stands M { st with
        stack := stop
        homes := fun i => if i = j then some (Int64.ofNat start) else st.homes i } g u := by
  subst hu hfg
  refine ⟨rfl, rfl, hst.depth, ?_, ?_, fun i t' hi => ?_, ?_⟩
  · simpa [Frame.setSlot] using hst.temps
  · simpa [Frame.setSlot] using hst.slots
  · have hsize : t < f.slots.size := hst.slots ▸ ht
    simp only [Frame.setSlot, getD_setIfInBounds _ _ _ _ _ hsize]
    by_cases hij : i = j
    · subst hij
      rw [if_pos (Option.some.inj (hslot.symm.trans hi)), if_pos rfl]
    · rw [if_neg hij, if_neg]
      · exact hst.homes i t' hi
      · rintro rfl
        have hi' : i < M.slots.length := (List.getElem?_eq_some_iff.mp hi).1
        exact hij ((List.getElem?_inj hi' hslots).mp (hi.trans hslot.symm))
  · exact Nat.le_trans hst.steps (Nat.add_le_add_right (Nat.le_succ _) _)

/-- What is known after storage was asked for. -/
structure Resides (M : Setting) (s : Lowering.State) (j : Nat) (t : Temp) (address : Int64)
    (st : Store) (g : Frame) : Prop where
  pc : g.pc = s.code.size
  slot : M.slots[j]? = some t
  home : st.homes j = some address
  yields : Yields M s.temps (.temp t) address g

theorem meets_allocate {k : Evaluation.Counters} {t : Temp}
    (hs : Lowering.allocate r ty s = .ok (t, s')) (hM : M.Hosts s') (hk : Agrees scopes k s)
    (hat : At M scopes s st f m) :
    Meets M targets s.temps f m st (Resides M s' k.locals t)
      (Evaluation.reside k.locals (r.sizeOf ty) (r.alignOf ty) st) := by
  have hslot : M.slots[k.locals]? = some t :=
    Lowering.getElem?_of_prefix hM.slots (hk.allocate hs).2
  obtain ⟨_, _, hfresh, h⟩ := bind_eq_ok.mp hs
  obtain ⟨⟨⟩, _, hemit, h⟩ := bind_eq_ok.mp h
  obtain ⟨rfl, rfl⟩ := pure_eq_ok.mp h
  cases hfresh
  obtain rfl := emit_eq_ok.mp hemit
  have ht : s.temps < M.routine.temps := hM.temps
  have hpush := hM.at_push (s := s) rfl
  rw [← hat.pc] at hpush
  have hpc : f.pc + 1 = (s.code.push (.alloca s.temps (r.sizeOf ty) (r.alignOf ty))).size := by
    simp [hat.pc]
  have hhome := hat.homes _ _ hslot
  have hnext : next M.program M.routine f m (.alloca s.temps (r.sizeOf ty) (r.alignOf ty)) =
      Machine.allocate (f.goto (f.pc + 1)) (tick m) s.temps (r.sizeOf ty) (r.alignOf ty) := rfl
  unfold Evaluation.reside
  unfold Machine.allocate at hnext
  rw [show (f.goto (f.pc + 1)).slots.getD s.temps none = st.homes k.locals from hhome] at hnext
  show Meets M targets s.temps f m st _ (EStateM.bind _ _ st)
  unfold EStateM.bind
  dsimp only [get, getThe, MonadStateOf.get]
  delta EStateM.get
  dsimp only
  cases hj : st.homes k.locals with
  | some address =>
    rw [hj] at hnext
    have hkept := (Machine.kept_goto s.temps f (f.pc + 1)).trans
      (Machine.kept_set _ address (Nat.le_refl s.temps)) (Nat.le_refl _)
    refine ⟨_, _, .single hat.toStands hpush hnext hkept rfl, hpc, hslot, hj, ?_,
      Nat.lt_succ_self _⟩
    exact congrArg Except.ok (Machine.getD_set_self _ address (hat.temps ▸ ht))
  | none =>
    rw [hj] at hnext
    unfold Machine.reserve at hnext
    rw [show (tick m).stack = st.stack from hat.stack,
      show (tick m).memory = st.memory from hat.memory] at hnext
    cases halign : Layout.alignTo st.stack (max (r.alignOf ty) 1) with
    | none =>
      simp only [halign] at hnext
      exact ⟨_, .done hpush trivial hnext, hat.memory⟩
    | some start =>
      simp only [halign] at hnext
      by_cases hfits : start + r.sizeOf ty ≤ st.memory.size
      · simp only [if_pos hfits] at hnext ⊢
        have hkept := (Machine.kept_goto s.temps f (f.pc + 1)).trans
          (kept_setSlot _ (Int64.ofNat start) (Nat.le_refl s.temps)) (Nat.le_refl _)
        have hstands : Stands M st (f.goto (f.pc + 1)) m :=
          hat.toStands.still rfl rfl rfl rfl rfl (Nat.le_refl _)
        refine ⟨_, _, ⟨.single hpush hnext, hkept,
          hstands.reside hM.sound.slots hslot ht rfl rfl, ?_⟩, hpc, hslot, if_pos rfl, ?_,
          Nat.lt_succ_self _⟩
        · intro i address hi
          by_cases hij : i = k.locals
          · rw [hij, hj] at hi
            cases hi
          · simpa [hij] using hi
        · exact congrArg Except.ok (Machine.getD_set_self f _ (hat.temps ▸ ht))
      · simp only [if_neg hfits] at hnext ⊢
        exact ⟨_, .done hpush trivial hnext, hat.memory⟩

/-! Names. -/

theorem meets_named {c : Evaluation.Context} {k : Evaluation.Counters} {name : String}
    (hc : ∀ name, c.global name = M.program.symbols[name]?)
    (hs : Lowering.variableAddress name s = .ok (v, s')) (hM : M.Hosts s')
    (hk : Agrees c.scopes k s) (hat : At M c.scopes s st f m) :
    Meets M targets s.temps f m st (Lands s' (Denotes M s'.temps (.place ⟨v, 0, ty⟩)))
      (c.named ty name st) := by
  obtain ⟨_, _, hget, hs⟩ := bind_eq_ok.mp hs
  cases hget
  have hname := hk.bindings.slot? name
  unfold Evaluation.Context.named
  cases hlookup : c.scopes.findSome? (·.lookup name) with
  | some j =>
    rw [hlookup] at hname
    obtain ⟨t, ht, hslot⟩ := hname
    simp only [ht] at hs
    obtain ⟨rfl, rfl⟩ := pure_eq_ok.mp hs
    obtain ⟨scope, hscope, hj⟩ := List.exists_of_findSome?_eq_some hlookup
    obtain ⟨before, after, rfl, -⟩ := List.lookup_eq_some_iff.mp hj
    obtain ⟨t', address, hslot', ht', hhome, hvalue⟩ := hat.held _ hscope (name, j) (by simp)
    obtain rfl : t' = t := Option.some.inj
      (hslot'.symm.trans (Lowering.getElem?_of_prefix hM.slots hslot))
    have hhomed : Evaluation.home j st = .ok address st := by
      unfold Evaluation.home
      show EStateM.bind _ _ st = _
      unfold EStateM.bind
      dsimp only [get, getThe, MonadStateOf.get]
      delta EStateM.get
      dsimp only
      rw [hhome]
      rfl
    show Meets M targets s.temps f m st _ (EStateM.bind _ _ st)
    unfold EStateM.bind
    rw [hhomed]
    refine ⟨f, m, .refl hat.toStands _, hat.pc, rfl, address, ⟨?_, ht'⟩, Int64.add_zero _⟩
    exact congrArg Except.ok hvalue
  | none =>
    rw [hlookup] at hname
    simp only [hname] at hs
    cases hglobal : c.global name with
    | some address =>
      have hsymbol : M.program.symbols[name]? = some address := (hc name).symm.trans hglobal
      have haddress : Gives M.program M.routine s s' f m v (.ok address) := by
        refine Lowering.gives_define hs (hM.straight hat.toStands) hat.pc ?_
        simp only [next, Machine.step, hsymbol]
      obtain ⟨g, u, hfg, hpc, hv⟩ := meets_lift targets hat.toStands haddress
      exact ⟨g, u, hfg, hpc, rfl, address, hv, Int64.add_zero _⟩
    | none =>
      have hsymbol : M.program.symbols[name]? = none := (hc name).symm.trans hglobal
      have haddress : Gives M.program M.routine s s' f m v (.error (.undefinedSymbol name)) := by
        refine Lowering.gives_define hs (hM.straight hat.toStands) hat.pc ?_
        simp only [next, Machine.step, hsymbol]
      exact meets_lift targets hat.toStands haddress

end Places

end MiniC.Simulation
