import MiniC.Proofs.Code.Passes
import MiniC.Proofs.Machine.Image
import MiniC.Proofs.Machine.Refinement
import MiniC.Proofs.Machine.Safety
/-!
How a machine runs code that was rewritten. Frames of the two routines are related by what is still
to come of their bodies. Main statement: a routine is simulated by each of its rewritings that keeps
the allocations it makes.
-/
namespace MiniC.Machine

open Code (Function Inst Label Names Operand Orderly Summary Temp Thins labelsOf readBy)

/-! Instructions whose operands have the same values. -/

section Instructions

variable {p : Program} {r r' : Routine} {f f' : Frame} {s s' : State} {i : Inst}
  {K : Frame → Frame → Prop}

theorem matches_assign {dst : Temp} {x : Except Fault Int64} (hsame : Same s s')
    (hset : ∀ v, K (f.set dst v) (f'.set dst v)) :
    Matches K (assign f s dst x) (assign f' s' dst x) := by
  cases x with
  | error e => exact .done hsame
  | ok v => exact .go (hset v) hsame

theorem matches_jump {l : Label} (hsame : Same s s')
    (hjump : ∃ pc pc', position r l = .ok pc ∧ position r' l = .ok pc' ∧
      K (f.goto pc) (f'.goto pc')) : Matches K (jump r f s l) (jump r' f' s' l) := by
  obtain ⟨pc, pc', hpc, hpc', hframes⟩ := hjump
  simp only [jump, hpc, hpc']
  exact .go hframes hsame

theorem matches_branch {cond cond' : Operand} {l : Label} (taken : Int64 → Bool)
    (hsame : Same s s') (hvalue : value p f' cond' = value p f cond) (hgo : K f f')
    (hjump : ∃ pc pc', position r l = .ok pc ∧ position r' l = .ok pc' ∧
      K (f.goto pc) (f'.goto pc')) :
    Matches K (branch p r f s cond l taken) (branch p r' f' s' cond' l taken) := by
  simp only [branch, hvalue]
  cases value p f cond with
  | error e => exact .done hsame
  | ok v =>
    by_cases htaken : taken v
    · simp only [htaken, if_true]
      exact matches_jump hsame hjump
    · simp only [htaken]
      exact .go hgo hsame

theorem values_map {g : Operand → Operand} {os : List Operand}
    (h : ∀ o ∈ os, value p f' (g o) = value p f o) :
    values p f' (os.map g) = values p f os := by
  induction os with
  | nil => rfl
  | cons o os ih =>
    simp only [List.map_cons, values, h o (List.mem_cons_self ..),
      ih fun o ho => h o (List.mem_cons_of_mem _ ho)]

/-- An instruction does the same in frames that agree on its operands. What `K` must allow is what
can come of the frames. -/
theorem matches_step (hsame : Same s s') (hname : r'.name = r.name)
    (hargs : f'.args = f.args) (hslots : f'.slots = f.slots)
    (hvalue : ∀ o ∈ i.operands, value p f' o = value p f o)
    (hgo : i.dst? = none → i.endsBlock = false → K f f')
    (hset : ∀ t v, i.dst? = some t → K (f.set t v) (f'.set t v))
    (hslot : ∀ t v, i.dst? = some t → K (f.setSlot t v) (f'.setSlot t v))
    (hjump : ∀ l, i.target? = some l → ∃ pc pc', position r l = .ok pc ∧
      position r' l = .ok pc' ∧ K (f.goto pc) (f'.goto pc')) :
    Matches K (step p r f s i) (step p r' f' s' i) := by
  cases i with
  | label name => exact .go (hgo rfl rfl) hsame
  | comment text => exact .go (hgo rfl rfl) hsame
  | copy dst src =>
    simp only [step, hvalue src (List.mem_singleton.mpr rfl)]
    exact matches_assign hsame fun v => hset dst v rfl
  | unary dst op src =>
    simp only [step, hvalue src (List.mem_singleton.mpr rfl)]
    exact matches_assign hsame fun v => hset dst v rfl
  | binary dst op left right =>
    simp only [step, hvalue left (by simp [Inst.operands]),
      hvalue right (by simp [Inst.operands])]
    exact matches_assign hsame fun v => hset dst v rfl
  | cast dst src access =>
    simp only [step, hvalue src (List.mem_singleton.mpr rfl)]
    exact matches_assign hsame fun v => hset dst v rfl
  | load dst base offset access =>
    simp only [step, hvalue base (List.mem_singleton.mpr rfl), hsame.memory]
    exact matches_assign hsame fun v => hset dst v rfl
  | store base offset src size =>
    simp only [step, storeTo, hvalue base (by simp [Inst.operands]),
      hvalue src (by simp [Inst.operands]), hsame.memory]
    cases value p f base with
    | error e => exact .done hsame
    | ok address =>
      cases value p f src with
      | error e => exact .done hsame
      | ok v =>
        simp only
        cases s.memory.locate (address + offset) size with
        | error e => exact .done hsame
        | ok start => exact .go (hgo rfl rfl) ⟨rfl, hsame.stack, hsame.depth⟩
  | jump target => exact matches_jump hsame (hjump target rfl)
  | branchIf cond target =>
    exact matches_branch _ hsame (hvalue cond (List.mem_singleton.mpr rfl)) (hgo rfl rfl)
      (hjump target rfl)
  | branchUnless cond target =>
    exact matches_branch _ hsame (hvalue cond (List.mem_singleton.mpr rfl)) (hgo rfl rfl)
      (hjump target rfl)
  | call dst name args =>
    have hvalues : values p f' (args.map id) = values p f args := values_map hvalue
    rw [List.map_id] at hvalues
    simp only [step, hvalues]
    cases values p f args with
    | error e => exact .done hsame
    | ok vs =>
      refine .call (fun v => ?_) hsame
      cases dst with
      | none => exact hgo rfl rfl
      | some t => exact hset t v rfl
  | ret result =>
    cases result with
    | none => exact .done hsame
    | some o =>
      simp only [step, hvalue o (List.mem_singleton.mpr rfl)]
      exact .done hsame
  | alloca dst size align =>
    simp only [step, allocate, hslots]
    cases f.slots.getD dst none with
    | some address => exact .go (hset dst address rfl) hsame
    | none =>
      simp only [reserve, hsame.stack, hsame.memory]
      cases Layout.alignTo s.stack (max align 1) with
      | none => exact .done hsame
      | some start =>
        by_cases hroom : start + size ≤ s.memory.size
        · simp only [hroom, if_true]
          exact .go (hslot dst _ rfl) ⟨rfl, rfl, hsame.depth⟩
        · simp only [hroom, if_false]
          exact .done hsame
  | addressOf dst name => exact matches_assign hsame fun v => hset dst v rfl
  | param dst index =>
    simp only [step, hargs, hname]
    exact matches_assign hsame fun v => hset dst v rfl

end Instructions

/-! Bodies and positions. -/

section Positions

variable {body before rest : List Inst} {i : Inst} {l : Label} {n : Nat}

theorem drop_eq_cons (h : body[n]? = some i) : body.drop n = i :: body.drop (n + 1) := by
  obtain ⟨hlt, rfl⟩ := List.getElem?_eq_some_iff.mp h
  exact List.drop_eq_getElem_cons hlt

theorem getElem?_of_drop (h : body.drop n = i :: rest) :
    body[n]? = some i ∧ body.drop (n + 1) = rest := by
  constructor
  · rw [← List.head?_drop, h, List.head?_cons]
  · rw [← List.drop_drop, h, List.drop_succ_cons, List.drop_zero]

theorem position_eq {f : Function} (hlabels : (labelsOf f.body).Nodup)
    (hbody : f.body = before ++ .label l :: rest) :
    position (Routine.ofFunction f) l = .ok before.length := by
  have hat : f.body[before.length]? = some (.label l) := by
    rw [hbody, List.getElem?_append_right (Nat.le_refl _), Nat.sub_self]
    rfl
  have hlabel : (Routine.ofFunction f).labels[l]? = some before.length :=
    getElem?_labelPositions hlabels hat
  simp only [position, hlabel]

theorem getElem?_body (f : Function) (n : Nat) : (Routine.ofFunction f).body[n]? = f.body[n]? :=
  List.getElem?_toArray

end Positions

/-! Frames that differ where no instruction looks. -/

structure Agree (U : Set Temp) (f f' : Frame) : Prop where
  args : f'.args = f.args
  slots : f'.slots = f.slots
  size : f'.temps.size = f.temps.size
  temps : ∀ t ∈ U, f'.temps.getD t 0 = f.temps.getD t 0

section Agree

variable {U : Set Temp} {f f' g : Frame} {t : Temp}

theorem Agree.refl (U : Set Temp) (f : Frame) : Agree U f f := ⟨rfl, rfl, rfl, fun _ _ => rfl⟩

/-- Both are compared with a third frame. -/
theorem Agree.of_left (h : Agree U f f') (hg : Agree U f g) : Agree U g f' where
  args := h.args.trans hg.args.symm
  slots := h.slots.trans hg.slots.symm
  size := h.size.trans hg.size.symm
  temps t ht := (h.temps t ht).trans (hg.temps t ht).symm

theorem Agree.goto (h : Agree U f f') (pc pc' : Nat) : Agree U (f.goto pc) (f'.goto pc') :=
  ⟨h.args, h.slots, h.size, h.temps⟩

theorem getD_set (f : Frame) (t u : Temp) (v : Int64) :
    (f.set t v).temps.getD u 0 =
      if t = u ∧ u < f.temps.size then v else f.temps.getD u 0 := by
  simp only [Frame.set, Array.getD_eq_getD_getElem?, Array.getElem?_setIfInBounds]
  by_cases hu : t = u
  · by_cases hlt : u < f.temps.size <;> simp [hu, hlt]
  · simp [hu]

theorem Agree.set (h : Agree U f f') (t : Temp) (v : Int64) : Agree U (f.set t v) (f'.set t v) where
  args := h.args
  slots := h.slots
  size := by simp [Frame.set, h.size]
  temps u hu := by rw [getD_set, getD_set, h.size, h.temps u hu]

theorem Agree.setSlot (h : Agree U f f') (t : Temp) (v : Int64) :
    Agree U (f.setSlot t v) (f'.setSlot t v) where
  args := h.args
  slots := by simp only [Frame.setSlot, h.slots]
  size := (h.set t v).size
  temps := (h.set t v).temps

theorem agree_set_of_notMem (f : Frame) (v : Int64) (h : t ∉ U) : Agree U f (f.set t v) where
  args := rfl
  slots := rfl
  size := by simp [Frame.set]
  temps u hu := by
    rw [getD_set, if_neg]
    rintro ⟨rfl, -⟩
    exact h hu

theorem Agree.value {p : Program} {o : Operand} (h : Agree U f f')
    (ho : ∀ t, o = .temp t → t ∈ U) : value p f' o = value p f o := by
  cases o with
  | temp t => simp only [Machine.value, h.temps t (ho t rfl)]
  | _ => rfl

end Agree

/-! Instructions that are left out. -/

section Thinning

variable {p : Program} {f : Function} {body' : List Inst} {allowed : Inst → Prop} {U : Set Temp}

/-- What a simulation asks of an instruction that the new routine does not have. -/
def Silent (p : Program) (r : Routine) (U : Set Temp) (f : Frame) (i : Inst) : Prop :=
  ∀ s, ∃ g, next p r f s i = .go g (tick s) ∧ g.pc = f.pc + 1 ∧ Agree U f g

theorem value_eq_ok {o : Operand} (h : ∀ l, o = .data l → p.symbols[l]?.isSome) (f : Frame) :
    ∃ v, value p f o = .ok v := by
  cases o with
  | data l =>
    obtain ⟨address, haddress⟩ := Option.isSome_iff_exists.mp (h l rfl)
    exact ⟨address, by simp only [value, haddress]⟩
  | _ => exact ⟨_, rfl⟩

/-- A pure instruction does no more than give its temporary a value. -/
theorem silent_of_pure {strict : Prop} {r : Routine} (hr : InOrder p strict r) {i : Inst}
    (hi : i ∈ r.body) {t : Temp} (hdst : i.dst? = some t) (ht : t ∉ U) (hpure : i.isPure)
    (hkept : ∀ size align, i ≠ .alloca t size align) {f : Frame} (hargs : f.args.length = r.arity) :
    Silent p r U f i := by
  intro s
  suffices h : ∃ v, next p r f s i = .go ((f.goto (f.pc + 1)).set t v) (tick s) by
    obtain ⟨v, hnext⟩ := h
    exact ⟨_, hnext, rfl, (agree_set_of_notMem f v ht).goto f.pc (f.pc + 1)⟩
  have hvalue (o : Operand) (ho : o ∈ i.operands) : ∃ v, value p (f.goto (f.pc + 1)) o = .ok v :=
    value_eq_ok (fun l hl => hr.data i hi l (hl ▸ ho)) _
  cases i with
  | copy dst src =>
    cases hdst
    obtain ⟨v, hv⟩ := hvalue src (List.mem_singleton.mpr rfl)
    exact ⟨v, by simp only [next, step, hv, assign]⟩
  | unary dst op src =>
    cases hdst
    obtain ⟨v, hv⟩ := hvalue src (List.mem_singleton.mpr rfl)
    exact ⟨op.eval v, by simp only [next, step, hv, assign]⟩
  | binary dst op left right =>
    cases hdst
    obtain ⟨v, hv⟩ := hvalue left (by simp [Inst.operands])
    obtain ⟨w, hw⟩ := hvalue right (by simp [Inst.operands])
    have hdivisor : op.eval v w ≠ none := by
      intro hnone
      obtain ⟨hdivision, rfl⟩ := Code.BinaryOp.eval_eq_none_iff.mp hnone
      simp only [Inst.isPure, hdivision, Bool.not_true, Bool.false_or] at hpure
      cases right with
      | const n =>
        cases hw
        exact absurd hpure (by simp)
      | _ => cases hpure
    obtain ⟨x, hx⟩ := Option.ne_none_iff_exists'.mp hdivisor
    exact ⟨x, by simp only [next, step, hv, hw, hx, assign]⟩
  | cast dst src access =>
    cases hdst
    obtain ⟨v, hv⟩ := hvalue src (List.mem_singleton.mpr rfl)
    exact ⟨access.truncate v, by simp only [next, step, hv, assign]⟩
  | alloca dst size align =>
    cases hdst
    exact absurd rfl (hkept size align)
  | addressOf dst name =>
    cases hdst
    obtain ⟨address, haddress⟩ := Option.isSome_iff_exists.mp (hr.globals t name hi)
    exact ⟨address, by simp only [next, step, haddress, assign]⟩
  | param dst index =>
    cases hdst
    have hlt : index < f.args.length := hargs ▸ hr.params t index hi
    exact ⟨f.args[index], by simp only [next, step, Frame.goto, List.getElem?_eq_getElem hlt, assign]⟩
  | _ => cases hpure

/-- A routine is simulated by what is left of it. -/
theorem simulation_of_thins {skips : Inst → List Inst → Prop} {R : List Inst → List Inst → Prop}
    (h : Thins skips R f.body body') (hlabels : (labelsOf f.body).Nodup)
    (hlabels' : (labelsOf body').Nodup)
    (htargets : ∀ i ∈ f.body, ∀ l, i.target? = some l → l ∈ labelsOf f.body)
    (hU : readBy f.body ⊆ U)
    (hskips : ∀ {fr i rest}, f.body.drop fr.pc = i :: rest → skips i rest → allowed i →
      fr.args.length = f.params.length → Silent p (Routine.ofFunction f) U fr i) :
    Simulation p allowed (Routine.ofFunction f) (Routine.ofFunction { f with body := body' })
      fun fr fr' => R (f.body.drop fr.pc) (body'.drop fr'.pc) ∧ Agree U fr fr' ∧
        fr.args.length = f.params.length where
  arity := rfl
  enter args hargs := ⟨h.entry, Agree.refl U _, hargs⟩
  stop := by
    rintro fr fr' ⟨hR, -, -⟩ hat
    rw [getElem?_body, List.getElem?_eq_none_iff] at hat ⊢
    rw [List.drop_eq_nil_of_le hat] at hR
    exact List.drop_eq_nil_iff.mp (h.nil hR)
  step := by
    rintro fr fr' i s s' ⟨hR, hagree, hargs⟩ hat hallowed hsame
    rw [getElem?_body] at hat
    have hdrop := drop_eq_cons hat
    rw [hdrop] at hR
    rcases h.cons hR with ⟨hskip, hrest⟩ | ⟨rest', hdrop', hrest⟩
    · obtain ⟨g, hnext, hpc, hg⟩ := hskips hdrop hskip hallowed hargs s
      exact .inl ⟨g, _, hnext, ⟨hpc ▸ hrest, hagree.of_left hg, hg.args ▸ hargs⟩, same_tick s⟩
    obtain ⟨hat', rfl⟩ := getElem?_of_drop hdrop'
    have hi : i ∈ f.body := List.mem_of_getElem? hat
    refine .inr ⟨i, (getElem?_body _ _).trans hat', hallowed, ?_⟩
    have hends {t : Temp} (hdst : i.dst? = some t) : i.endsBlock = false := by
      cases i <;> first | rfl | cases hdst
    refine matches_step hsame.tick rfl hagree.args hagree.slots (fun o ho => ?_)
      (fun _ hi => ⟨hrest hi, hagree.goto _ _, hargs⟩)
      (fun t v hdst => ⟨hrest (hends hdst), (hagree.goto _ _).set t v, hargs⟩)
      (fun t v hdst => ⟨hrest (hends hdst), (hagree.goto _ _).setSlot t v, hargs⟩)
      fun l hl => ?_
    · exact (hagree.goto _ _).value fun t ht => hU ⟨i, hi, ht ▸ ho⟩
    · obtain ⟨before, rest, hbody⟩ := List.append_of_mem (Code.mem_labelsOf.mp (htargets i hi l hl))
      obtain ⟨before', rest', hbody', hR'⟩ := h.label hbody ⟨i, hi, hl⟩
      refine ⟨_, _, position_eq hlabels hbody, position_eq hlabels' hbody', ?_, hagree.goto _ _, hargs⟩
      simpa only [Frame.goto, hbody, hbody', List.drop_left] using hR'

end Thinning

end MiniC.Machine
