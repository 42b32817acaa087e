import MiniC.Proofs.Evaluation.Action
import MiniC.Proofs.Lowering.Growth
import MiniC.Proofs.Machine.Ending
/-!
Straight-line code and what it computes. Main statement: the code for an operator on typed operands
computes the value of that operator, and leaves memory and all earlier temporaries as they were.
-/
namespace MiniC.Lowering

open Code (Inst Operand Temp)
open Machine (Fault Frame Kept Program Reaches Routine next tick)

/-- The code up to `s` stands at the beginning of a routine, and the frame has room for it. -/
structure Hosts (r : Routine) (f : Frame) (s : State) : Prop where
  code : s.code.toList <+: r.body.toList
  temps : s.temps ≤ f.temps.size

/-- From the beginning of the code after `s` to its end, with nothing changed but what is new. -/
structure Arrives (p : Program) (r : Routine) (s s' : State) (f : Frame) (m : Machine.State)
    (g : Frame) (n : Machine.State) : Prop where
  path : Reaches p r f m g n
  pc : g.pc = s'.code.size
  kept : Kept s.temps f g
  slots : g.slots = f.slots
  memory : n.memory = m.memory
  stack : n.stack = m.stack
  depth : n.depth = m.depth

/-- The code after `s` computes `x` as the value of an operand, or stops with its fault. -/
def Gives (p : Program) (r : Routine) (s s' : State) (f : Frame) (m : Machine.State)
    (v : Operand) : Except Fault Int64 → Prop
  | .ok w => ∃ g n, Arrives p r s s' f m g n ∧ Machine.value p g v = .ok w ∧ v.Below s'.temps
  | .error e => ∃ g n i u, Reaches p r f m g n ∧ r.body[g.pc]? = some i ∧
      next p r g n i = .done (.error e) u ∧ u.memory = m.memory

section Straight

variable {p : Program} {r : Routine} {s s' t : State} {f g : Frame} {m n : Machine.State}
  {a v : Operand} {w : Int64} {x : Except Fault Int64} {i : Inst}

theorem Hosts.grows {view : Slots → Slots} (h : Hosts r f s') (hs : Extends view s s') :
    Hosts r f s :=
  ⟨hs.code.trans h.code, Nat.le_trans hs.temps h.temps⟩

theorem Hosts.kept {k : Nat} (h : Hosts r f s) (hk : Kept k f g) : Hosts r g s :=
  ⟨h.code, by rw [hk.size]; exact h.temps⟩

/-- The instruction that was emitted at the end of `s`. -/
theorem Hosts.at_push (h : Hosts r f s') (hs : s'.code = s.code.push i) (hpc : f.pc = s.code.size) :
    r.body[f.pc]? = some i := by
  obtain ⟨rest, hrest⟩ := h.code
  rw [hpc, ← Array.getElem?_toList, ← hrest, hs, Array.toList_push, List.append_assoc,
    List.getElem?_append_right (by simp)]
  simp

theorem Arrives.refl (hpc : f.pc = s.code.size) : Arrives p r s s f m f m :=
  ⟨.refl f m, hpc, Kept.refl _ f, rfl, rfl, rfl, rfl⟩

theorem Arrives.trans {h : Frame} {u : Machine.State} (hst : Arrives p r s t f m g n)
    (hts : Arrives p r t s' g n h u) (hle : s.temps ≤ t.temps) : Arrives p r s s' f m h u where
  path := hst.path.trans hts.path
  pc := hts.pc
  kept := hst.kept.trans hts.kept hle
  slots := hts.slots.trans hst.slots
  memory := hts.memory.trans hst.memory
  stack := hts.stack.trans hst.stack
  depth := hts.depth.trans hst.depth

theorem Arrives.gives (h : Arrives p r s t f m g n) (hle : s.temps ≤ t.temps)
    (hx : Gives p r t s' g n v x) : Gives p r s s' f m v x := by
  cases x with
  | ok w =>
    obtain ⟨g', n', harrives, hv, hbelow⟩ := hx
    exact ⟨g', n', h.trans harrives hle, hv, hbelow⟩
  | error e =>
    obtain ⟨g', n', i, u, hpath, hat, hn, hmemory⟩ := hx
    exact ⟨g', n', i, u, h.path.trans hpath, hat, hn, hmemory.trans h.memory⟩

/-- Nothing is emitted for a value that is there already. -/
theorem gives_refl (hpc : f.pc = s.code.size) (hv : Machine.value p f v = .ok w)
    (hb : v.Below s.temps) : Gives p r s s f m v (.ok w) :=
  ⟨f, m, Arrives.refl hpc, hv, hb⟩

theorem gives_define {make : Temp → Inst} (hs : define make s = .ok (v, s')) (hr : Hosts r f s')
    (hpc : f.pc = s.code.size)
    (hn : next p r f m (make s.temps) =
      Machine.assign (f.goto (f.pc + 1)) (tick m) s.temps x) :
    Gives p r s s' f m v x := by
  obtain ⟨rfl, rfl⟩ := define_eq_ok.mp hs
  have hat := hr.at_push rfl hpc
  cases x with
  | error e => exact ⟨f, m, _, _, .refl f m, hat, hn, rfl⟩
  | ok w =>
    refine ⟨_, _, ⟨Reaches.single hat hn, ?_, ?_, rfl, rfl, rfl, rfl⟩, ?_, Nat.lt_succ_self _⟩
    · simp [Frame.goto, hpc]
    · exact (Machine.kept_goto _ f _).trans (Machine.kept_set _ w (Nat.le_refl _)) (Nat.le_refl _)
    · exact congrArg Except.ok (Machine.getD_set_self _ w hr.temps)

variable {l : Int64} {left right : Operand}

theorem next_binary {op : Code.BinaryOp} {dst : Temp} (hl : Machine.value p f left = .ok l)
    (hw : Machine.value p f right = .ok w) :
    next p r f m (.binary dst op left right) =
      Machine.assign (f.goto (f.pc + 1)) (tick m) dst (Evaluation.operate op l w) := by
  simp only [next, Machine.step, Machine.value_goto, hl, hw]
  rfl

theorem gives_binary {op : Code.BinaryOp} (hs : define (.binary · op left right) s = .ok (v, s'))
    (hr : Hosts r f s') (hpc : f.pc = s.code.size) (hl : Machine.value p f left = .ok l)
    (hw : Machine.value p f right = .ok w) :
    Gives p r s s' f m v (Evaluation.operate op l w) :=
  gives_define hs hr hpc (next_binary hl hw)

theorem gives_unary {op : Code.UnaryOp} (hs : define (.unary · op a) s = .ok (v, s'))
    (hr : Hosts r f s') (hpc : f.pc = s.code.size) (ha : Machine.value p f a = .ok w) :
    Gives p r s s' f m v (.ok (op.eval w)) :=
  gives_define hs hr hpc (by simp only [next, Machine.step, Machine.value_goto, ha])

/-! Conversions and operators. -/

variable {c : Registry} {ty leftTy rightTy result : TypeId} {op : Syntax.BinaryOp} {stride : Int64}

theorem gives_convert (hs : convert c a ty s = .ok (v, s')) (hr : Hosts r f s')
    (hpc : f.pc = s.code.size) (ha : Machine.value p f a = .ok w) (hb : a.Below s.temps) :
    Gives p r s s' f m v (.ok (Evaluation.convert c w ty)) := by
  unfold convert at hs
  unfold Evaluation.convert
  cases haccess : c.access? ty with
  | none =>
    simp only [haccess] at hs
    obtain ⟨rfl, rfl⟩ := pure_eq_ok.mp hs
    exact gives_refl hpc ha hb
  | some access =>
    simp only [haccess] at hs
    by_cases hwide : 8 ≤ access.size
    · rw [if_pos hwide] at hs
      obtain ⟨rfl, rfl⟩ := pure_eq_ok.mp hs
      simp only [Access.truncate, if_pos hwide]
      exact gives_refl hpc ha hb
    rw [if_neg hwide] at hs
    have hcast (hs : define (.cast · a access) s = .ok (v, s')) :
        Gives p r s s' f m v (.ok (access.truncate w)) :=
      gives_define hs hr hpc (by simp only [next, Machine.step, Machine.value_goto, ha])
    cases a with
    | const k =>
      obtain ⟨rfl, rfl⟩ := pure_eq_ok.mp hs
      cases ha
      exact gives_refl hpc rfl trivial
    | temp k => exact hcast hs
    | data k => exact hcast hs

theorem gives_scale (hs : scale a stride s = .ok (v, s')) (hr : Hosts r f s')
    (hpc : f.pc = s.code.size) (ha : Machine.value p f a = .ok w) (hb : a.Below s.temps) :
    Gives p r s s' f m v (.ok (w * stride)) := by
  unfold scale at hs
  by_cases hone : stride = 1
  · rw [if_pos hone] at hs
    obtain ⟨rfl, rfl⟩ := pure_eq_ok.mp hs
    rw [hone, Int64.mul_one]
    exact gives_refl hpc ha hb
  rw [if_neg hone] at hs
  cases a with
  | const k =>
    obtain ⟨rfl, rfl⟩ := pure_eq_ok.mp hs
    cases ha
    exact gives_refl hpc rfl trivial
  | temp k => exact gives_binary hs hr hpc ha rfl
  | data k => exact gives_binary hs hr hpc ha rfl

/-- What follows a value that is computed goes on from a frame that holds it. -/
theorem Gives.bind (ha : Gives p r s t f m a (.ok w)) (hle : s.temps ≤ t.temps)
    (hk : ∀ g n, g.pc = t.code.size → Kept s.temps f g → Machine.value p g a = .ok w →
      a.Below t.temps → Gives p r t s' g n v x) : Gives p r s s' f m v x := by
  obtain ⟨g, n, harrives, hv, hb⟩ := ha
  exact harrives.gives hle (hk g n harrives.pc harrives.kept hv hb)

variable (hr : Hosts r f s') (hpc : f.pc = s.code.size) (hl : Machine.value p f left = .ok l)
  (hw : Machine.value p f right = .ok w) (hbl : left.Below s.temps) (hbw : right.Below s.temps)

include hr hpc hl hw in
theorem gives_pointerDifference (hs : pointerDifference left right stride s = .ok (v, s')) :
    Gives p r s s' f m v (.ok (Evaluation.pointerDifference l w stride)) := by
  obtain ⟨bytes, t, hbytes, hs⟩ := bind_eq_ok.mp hs
  have hgrow := Grows.extends_of (.define _) hbytes
  have hrt := Grows.extends_of (.ite (.define _) (.pure _)) hs
  have hsub := gives_binary (p := p) (m := m) hbytes (hr.grows hrt) hpc hl hw
  refine hsub.bind hgrow.temps fun g n hg hkept hv hb => ?_
  unfold Evaluation.pointerDifference
  by_cases hone : 1 < stride
  · rw [if_pos hone] at hs ⊢
    have hdiv := gives_binary (p := p) (m := n) (w := stride) hs (hr.kept hkept) hg hv rfl
    have hne : stride ≠ 0 := by rintro rfl; exact absurd hone (by decide)
    simpa [Evaluation.operate, Code.BinaryOp.eval, Code.BinaryOp.isDivision, hne,
      Code.BinaryOp.apply] using hdiv
  · rw [if_neg hone] at hs ⊢
    obtain ⟨rfl, rfl⟩ := pure_eq_ok.mp hs
    exact gives_refl hg hv hb

include hr hpc hl hw in
theorem gives_integerArithmetic
    (hs : integerArithmetic c op left leftTy right rightTy result s = .ok (v, s')) :
    Gives p r s s' f m v (Evaluation.integerArithmetic c op l leftTy w rightTy result) := by
  unfold integerArithmetic at hs
  unfold Evaluation.integerArithmetic
  by_cases hcompare : op.isComparison
  · rw [if_pos hcompare] at hs ⊢
    exact gives_binary hs hr hpc hl hw
  rw [if_neg hcompare] at hs ⊢
  obtain ⟨a, t, ha, hs⟩ := bind_eq_ok.mp hs
  have hrt := Grows.extends_of (grows_convert c _ _) hs
  have hop := gives_binary (p := p) (m := m) ha (hr.grows hrt) hpc hl hw
  cases hx : Evaluation.operate (machineBinary op (isUnsigned c result)) l w with
  | error e =>
    rw [hx] at hop
    exact hop
  | ok y =>
    rw [hx] at hop
    have hgrow := Grows.extends_of (.define _) ha
    exact hop.bind hgrow.temps fun g n hg hkept hv hb =>
      gives_convert hs (hr.kept hkept) hg hv hb

/-- An operand that is scaled by the size of an object and then added or subtracted. -/
theorem gives_offset {mop : Code.BinaryOp} {base index : Operand} {b k : Int64}
    (hs : (do let distance ← scale index stride
              define (.binary · mop base distance) : Lower Operand) s = .ok (v, s'))
    (hr : Hosts r f s') (hpc : f.pc = s.code.size) (hbase : Machine.value p f base = .ok b)
    (hindex : Machine.value p f index = .ok k) (hbb : base.Below s.temps)
    (hbi : index.Below s.temps) :
    Gives p r s s' f m v (Evaluation.operate mop b (k * stride)) := by
  obtain ⟨distance, t, hscale, hs⟩ := bind_eq_ok.mp hs
  have hrt := Grows.extends_of (.define _) hs
  have hgrow := Grows.extends_of (grows_scale _ _) hscale
  have hmul := gives_scale (p := p) (m := m) hscale (hr.grows hrt) hpc hindex hbi
  refine hmul.bind hgrow.temps fun g n hg hkept hv hb => ?_
  exact gives_binary hs (hr.kept hkept) hg ((Machine.value_kept hkept hbb).trans hbase) hv

include hr hpc hl hw hbl hbw in
theorem gives_arithmetic (hs : arithmetic c op left leftTy right rightTy result s = .ok (v, s')) :
    Gives p r s s' f m v (Evaluation.arithmetic c op l leftTy w rightTy result) := by
  revert hs
  fun_cases arithmetic c op left leftTy right rightTy result <;> intro hs
  · rename_i hleft hright
    simp only [Evaluation.arithmetic, hleft, hright]
    exact gives_offset hs hr hpc hl hw hbl hbw
  · rename_i hleft hright
    simp only [Evaluation.arithmetic, hleft, hright]
    exact gives_offset hs hr hpc hl hw hbl hbw
  · rename_i hleft hright
    simp only [Evaluation.arithmetic, hleft, hright]
    exact gives_offset hs hr hpc hw hl hbw hbl
  · rename_i hleft hright
    simp only [Evaluation.arithmetic, hleft, hright]
    exact gives_pointerDifference hr hpc hl hw hs
  · rename_i h₁ h₂ h₃ h₄
    unfold Evaluation.arithmetic
    split
    · exact (h₁ _ rfl ‹_› ‹_›).elim
    · exact (h₂ _ rfl ‹_› ‹_›).elim
    · exact (h₃ _ rfl ‹_› ‹_›).elim
    · exact (h₄ _ _ rfl ‹_› ‹_›).elim
    · exact gives_integerArithmetic hr hpc hl hw hs

end Straight

end MiniC.Lowering
