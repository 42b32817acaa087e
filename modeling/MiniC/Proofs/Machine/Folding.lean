import MiniC.Proofs.Machine.Rewriting
/-!
How a machine runs folded code. A temporary that is known holds its constant once it was written,
and code in order reads nothing before. Main statement: a routine is simulated by its folding.
-/
namespace MiniC.Machine

open Code (Flows Function Inst Label Names Operand Orderly Summary Temp after labelsOf)

/-! One instruction. -/

section Instructions

variable {p : Program} {r : Routine} {f : Frame} {s : State} {i : Inst}

theorem step_mapOperands {g : Operand → Operand} (r : Routine) (s : State)
    (h : ∀ o ∈ i.operands, value p f (g o) = value p f o) :
    step p r f s (i.mapOperands g) = step p r f s i := by
  cases i with
  | binary dst op left right =>
    simp only [Inst.mapOperands, step, h left (by simp [Inst.operands]),
      h right (by simp [Inst.operands])]
  | store base offset src size =>
    simp only [Inst.mapOperands, step, storeTo, h base (by simp [Inst.operands]),
      h src (by simp [Inst.operands])]
  | call dst name args =>
    have hvalues : values p f (args.map g) = values p f args := values_map h
    simp only [Inst.mapOperands, step, hvalues]
  | ret result =>
    cases result with
    | none => rfl
    | some o => simp only [Inst.mapOperands, Option.map_some, step, h o (List.mem_singleton.mpr rfl)]
  | copy dst src => simp only [Inst.mapOperands, step, h src (List.mem_singleton.mpr rfl)]
  | unary dst op src => simp only [Inst.mapOperands, step, h src (List.mem_singleton.mpr rfl)]
  | cast dst src access => simp only [Inst.mapOperands, step, h src (List.mem_singleton.mpr rfl)]
  | load dst base offset access =>
    simp only [Inst.mapOperands, step, h base (List.mem_singleton.mpr rfl)]
  | branchIf cond target =>
    simp only [Inst.mapOperands, step, branch, h cond (List.mem_singleton.mpr rfl)]
  | branchUnless cond target =>
    simp only [Inst.mapOperands, step, branch, h cond (List.mem_singleton.mpr rfl)]
  | _ => rfl

theorem step_of_constant {t : Temp} {n : Int64} (h : Code.Fold.constant? i = some (t, n)) :
    step p r f s i = .go (f.set t n) s := by
  fun_cases Code.Fold.constant? i with
  | case1 dst m => cases h; rfl
  | case2 dst op m => cases h; rfl
  | case3 dst op l m =>
    simp only [Code.Fold.constant?, Option.map_eq_some_iff] at h
    obtain ⟨v, hv, ⟨⟩⟩ := h
    simp only [step, value, hv, assign]
  | case4 dst m access => cases h; rfl
  | case5 => simp_all [Code.Fold.constant?]

/-- A branch on a constant goes on, or it jumps. -/
theorem step_settle (p : Program) (i : Inst) :
    (Code.Fold.settle i).1 = [] ∧ i.dst? = none ∧ i.endsBlock = false ∧
        (∀ r f s, step p r f s i = .go f s) ∨
      ∃ j, (Code.Fold.settle i).1 = [j] ∧ (∀ r f s, step p r f s j = step p r f s i) ∧
        (j = i ∨ ∃ l, j = .jump l) := by
  fun_cases Code.Fold.settle i with
  | case1 n target =>
    by_cases hn : n != 0
    · exact .inr ⟨.jump target, by simp only [hn, if_true], by simp [step, branch, value, hn],
        .inr ⟨target, rfl⟩⟩
    · exact .inl ⟨by simp only [hn]; rfl, rfl, rfl, by simp [step, branch, value, hn]⟩
  | case2 n target =>
    by_cases hn : n == 0
    · exact .inr ⟨.jump target, by simp only [hn, if_true], by simp [step, branch, value, hn],
        .inr ⟨target, rfl⟩⟩
    · exact .inl ⟨by simp only [hn]; rfl, rfl, rfl, by simp [step, branch, value, hn]⟩
  | case3 => exact .inr ⟨i, rfl, fun _ _ _ => rfl, .inl rfl⟩

end Instructions

/-! Frames. -/

section Folding

variable {p : Program} {f : Function} {S : Summary} {A A' : Set Temp} {fr fr' : Frame}
  {before rest : List Inst} {i : Inst}

/-- What is available holds its constant, if it has one. -/
def Holds (body : List Inst) (A : Set Temp) (fr : Frame) : Prop :=
  ∀ t ∈ A, ∀ n, (Code.Fold.constants body)[t]? = some n → fr.temps.getD t 0 = n

theorem Holds.mono {body : List Inst} (h : Holds body A' fr) (hA : A ⊆ A') : Holds body A fr :=
  fun t ht => h t (hA ht)

theorem Holds.write {body : List Inst} {g : Frame} {t : Temp} {v : Int64} (h : Holds body A fr)
    (hwrite : ∀ u, g.temps.getD u 0 = if t = u then v else fr.temps.getD u 0)
    (hv : ∀ n, (Code.Fold.constants body)[t]? = some n → v = n) :
    Holds body ({u | some t = some u} ∪ A) g := by
  intro u hu n hn
  rw [hwrite u]
  by_cases htu : t = u
  · subst htu
    rw [if_pos rfl]
    exact hv n hn
  · rw [if_neg htu]
    exact h u (hu.resolve_left fun heq => htu (Option.some.inj heq)) n hn

/-- What is known where `rest` begins. -/
def knownAt (f : Function) (before : List Inst) : Code.Fold.Known :=
  Code.Fold.knownAfter (Code.Fold.countWrites f.body) {} before

def foldedInst (f : Function) (before : List Inst) (i : Inst) : List Inst :=
  (Code.Fold.inst (Code.Fold.countWrites f.body) (knownAt f before) i).insts

/-- Where the folded code of `rest` begins. -/
def foldedStart (f : Function) (before : List Inst) : Nat :=
  (Code.Fold.insts (Code.Fold.countWrites f.body) {} before).1.length

theorem foldedStart_next (f : Function) (before : List Inst) (i : Inst) :
    foldedStart f (before ++ [i]) = foldedStart f before + (foldedInst f before i).length := by
  unfold foldedStart
  rw [Code.Fold.insts_append, List.length_append]
  simp only [Code.Fold.insts, List.append_nil]
  rfl

theorem fold_body_eq (h : f.body = before ++ i :: rest) :
    ∃ before' rest', (Code.Fold.body f.body).1 = before' ++ (foldedInst f before i ++ rest') ∧
      before'.length = foldedStart f before := by
  have heq : (Code.Fold.body f.body).1 =
      (Code.Fold.insts (Code.Fold.countWrites f.body) {} before).1 ++
        (Code.Fold.insts (Code.Fold.countWrites f.body) (knownAt f before) (i :: rest)).1 := by
    rw [Code.Fold.body]
    nth_rewrite 2 [h]
    exact Code.Fold.insts_append _ _ before (i :: rest)
  exact ⟨_, _, heq, rfl⟩

/-- A frame of the folded routine is one of the old routine, at the same place of the code. -/
def Folds (f : Function) (S : Summary) (fr fr' : Frame) : Prop :=
  ∃ before rest A, f.body = before ++ rest ∧ fr.pc = before.length ∧
    fr' = fr.goto (foldedStart f before) ∧ Flows S A rest ∧ Holds f.body A fr ∧
    fr.temps.size = f.temps

/-- A frame that comes to an instruction, with what is available there. -/
structure Meets (f : Function) (S : Summary) (before : List Inst) (i : Inst) (rest : List Inst)
    (A : Set Temp) (fr : Frame) : Prop where
  body : f.body = before ++ i :: rest
  pc : fr.pc = before.length
  flows : Flows S A (i :: rest)
  holds : Holds f.body A fr
  size : fr.temps.size = f.temps

theorem Folds.meets (h : Folds f S fr fr') (hat : f.body[fr.pc]? = some i) :
    ∃ before rest A, Meets f S before i rest A fr ∧ fr' = fr.goto (foldedStart f before) := by
  obtain ⟨before, rest, A, hbody, hpc, rfl, hflows, hholds, hsize⟩ := h
  rw [hbody, hpc, List.getElem?_append_right (Nat.le_refl _), Nat.sub_self] at hat
  cases rest with
  | nil => cases hat
  | cons j rest =>
    cases hat
    exact ⟨before, rest, A, ⟨hbody, hpc, hflows, hholds, hsize⟩, rfl⟩

namespace Meets

/-- Operands that are folded have the values that they had. -/
theorem value_resolve (h : Meets f S before i rest A fr) (pc : Nat) {o : Operand}
    (ho : o ∈ i.operands) :
    value p (fr.goto pc) (Code.Fold.resolve (knownAt f before) o) = value p (fr.goto pc) o := by
  cases o with
  | temp t =>
    simp only [Code.Fold.resolve]
    split
    · rename_i n hn
      have hconstant := Code.Fold.constants_of_known h.body hn
      have hvalue : (fr.goto pc).temps.getD t 0 = n := h.holds t (h.flows.1.reads t ho) n hconstant
      simp only [value, hvalue]
    · rfl
  | _ => rfl

theorem step_resolve (h : Meets f S before i rest A fr) (pc : Nat) (r : Routine) (s : State) :
    step p r (fr.goto pc) s (i.mapOperands (Code.Fold.resolve (knownAt f before))) =
      step p r (fr.goto pc) s i :=
  step_mapOperands r s fun _ ho => h.value_resolve pc ho

/-- Going on to the next instruction, both are at the same place again. -/
theorem next {g : Frame} (h : Meets f S before i rest A fr) (hends : i.endsBlock = false)
    (hpc : g.pc = fr.pc + 1) (hholds : Holds f.body ({t | i.dst? = some t} ∪ A) g)
    (hsize : g.temps.size = f.temps) :
    Folds f S g (g.goto (foldedStart f before + (foldedInst f before i).length)) := by
  refine ⟨before ++ [i], rest, after S A i, ?_, ?_, ?_, h.flows.2, ?_, hsize⟩
  · rw [h.body, List.append_assoc, List.singleton_append]
  · rw [hpc, h.pc, List.length_append, List.length_singleton]
  · rw [foldedStart_next]
  · exact hholds.mono (Code.after_subset_of_next hends h.flows.1)

theorem next_unwritten (h : Meets f S before i rest A fr) (hends : i.endsBlock = false)
    (hdst : i.dst? = none) : Folds f S (fr.goto (fr.pc + 1))
      (fr.goto (foldedStart f before + (foldedInst f before i).length)) := by
  refine h.next (g := fr.goto (fr.pc + 1)) hends rfl ?_ h.size
  rw [hdst]
  exact Holds.mono h.holds fun t ht => ht.resolve_left nofun

theorem next_written {N : Names} {data : List Label} (h : Meets f S before i rest A fr)
    (horderly : Orderly N f.temps data S f.body) {t : Temp} {v : Int64} {g : Frame}
    (hdst : i.dst? = some t) (hv : ∀ n, (Code.Fold.constants f.body)[t]? = some n → v = n)
    (hpc : g.pc = fr.pc + 1) (htemps : g.temps = fr.temps.setIfInBounds t v) :
    Folds f S g (g.goto (foldedStart f before + (foldedInst f before i).length)) := by
  have hends : i.endsBlock = false := by cases i <;> first | rfl | cases hdst
  have hi : i ∈ f.body := by simp [h.body]
  refine h.next hends hpc ?_ (by simp [htemps, h.size])
  rw [hdst]
  refine h.holds.write (fun u => ?_) hv
  have hget := getD_set fr t u v
  have hlt : t < fr.temps.size := h.size ▸ (horderly.fine i hi).dst t hdst
  simp only [Frame.set] at hget
  rw [htemps, hget]
  by_cases hu : t = u
  · subst hu
    simp [hlt]
  · simp [hu]

theorem target {N : Names} {data : List Label} (h : Meets f S before i rest A fr)
    (horderly : Orderly N f.temps data S f.body)
    (hlabels : (labelsOf (Code.Fold.body f.body).1).Nodup) {l : Label} (hl : i.target? = some l)
    (pc pc' : Nat) :
    ∃ q q', position (Routine.ofFunction f) l = .ok q ∧
      position (Routine.ofFunction { f with body := (Code.Fold.body f.body).1 }) l = .ok q' ∧
      Folds f S ((fr.goto pc).goto q) ((fr.goto pc').goto q') := by
  have hi : i ∈ f.body := by simp [h.body]
  have hmem := Code.mem_labelsOf.mp (horderly.targets i hi l hl)
  obtain ⟨first, last, hbody⟩ := List.append_of_mem hmem
  obtain ⟨first', last', hfolded, hlength⟩ := fold_body_eq hbody
  have hat : f.body[first.length]? = some (.label l) := by
    rw [hbody, List.getElem?_append_right (Nat.le_refl _), Nat.sub_self]
    rfl
  have hlabel := horderly.flows.at_label hat
  rw [hbody, List.drop_left] at hlabel
  exact ⟨_, _, position_eq horderly.labels hbody, hlength ▸ position_eq hlabels hfolded, first,
    .label l :: last, S l, hbody, rfl, rfl, hlabel, h.holds.mono (h.flows.1.target l hl), h.size⟩

end Meets

theorem getElem?_folded (h : Meets f S before i rest A fr) {j : Inst}
    (hj : foldedInst f before i = [j]) :
    (Routine.ofFunction { f with body := (Code.Fold.body f.body).1 }).body[
      (fr.goto (foldedStart f before)).pc]? = some j := by
  obtain ⟨before', rest', hfolded, hlength⟩ := fold_body_eq h.body
  rw [getElem?_body]
  simp only [Frame.goto]
  rw [hfolded, ← hlength, List.getElem?_append_right (Nat.le_refl _), Nat.sub_self, hj]
  rfl

/-- Allocations are kept that are in the body. -/
def Keeps (body : List Inst) (i : Inst) : Prop :=
  ∀ dst size align, i = .alloca dst size align → i ∈ body

theorem keeps_mapOperands {body : List Inst} {g : Operand → Operand} (h : Keeps body i) :
    Keeps body (i.mapOperands g) := by
  intro dst size align halloca
  cases i with
  | alloca dst size align => exact h dst size align rfl
  | _ => cases halloca

/-- A routine is simulated by its folding. -/
theorem simulation_fold {N : Names} {data : List Label} {final : List Inst}
    (h : Orderly N f.temps data S f.body)
    (hlabels : (labelsOf (Code.Fold.body f.body).1).Nodup) :
    Simulation p (Keeps final) (Routine.ofFunction f)
      (Routine.ofFunction { f with body := (Code.Fold.body f.body).1 }) (Folds f S) where
  arity := rfl
  enter args _ := ⟨[], f.body, ∅, rfl, rfl, rfl, h.flows, fun _ ht => ht.elim, Array.size_replicate⟩
  stop := by
    rintro fr fr' ⟨before, rest, A, hbody, hpc, rfl, -⟩ hat
    rw [getElem?_body, List.getElem?_eq_none_iff] at hat ⊢
    have hrest : rest = [] := by
      rw [hbody, List.length_append] at hat
      exact List.eq_nil_of_length_eq_zero (by omega)
    subst hrest
    rw [List.append_nil] at hbody
    subst hbody
    exact Nat.le_refl _
  step := by
    intro fr fr' i s s' hfolds hat hkeeps hsame
    rw [getElem?_body] at hat
    obtain ⟨before, rest, A, hmeets, rfl⟩ := hfolds.meets hat
    have hstep := hmeets.step_resolve (p := p) (fr.pc + 1) (Routine.ofFunction f) (tick s)
    have hstep' := hmeets.step_resolve (p := p) (foldedStart f before + 1)
      (Routine.ofFunction { f with body := (Code.Fold.body f.body).1 }) (tick s')
    cases hconstant : Code.Fold.constant? (i.mapOperands (Code.Fold.resolve (knownAt f before))) with
    | some tn =>
      -- the instruction becomes the copy of a constant
      obtain ⟨t, n⟩ := tn
      have hinst : foldedInst f before i = [.copy t (.const n)] := by
        simp only [foldedInst, Code.Fold.inst, hconstant]
      have hdst : i.dst? = some t := by simpa using Code.dst?_of_constant? hconstant
      have hframes := hmeets.next_written h (g := (fr.goto (fr.pc + 1)).set t n) hdst
        (fun m hm => ?_) rfl rfl
      · have hnext : Machine.next p (Routine.ofFunction f) fr s i =
            .go ((fr.goto (fr.pc + 1)).set t n) (tick s) :=
          hstep.symm.trans (step_of_constant hconstant)
        rw [hinst] at hframes
        rw [hnext]
        exact .inr ⟨_, getElem?_folded hmeets hinst, fun _ _ _ heq => (by cases heq),
          .go hframes hsame.tick⟩
      · have hfolded := Code.Fold.constant_of_constants hmeets.body hm hdst
        exact congrArg Prod.snd (Option.some.inj (hconstant.symm.trans hfolded))
    | none =>
      have hinst : foldedInst f before i =
          (Code.Fold.settle (i.mapOperands (Code.Fold.resolve (knownAt f before)))).1 := by
        simp only [foldedInst, Code.Fold.inst, hconstant]
      rcases step_settle p (i.mapOperands (Code.Fold.resolve (knownAt f before))) with
        ⟨hnil, hdst, hends, hgo⟩ | ⟨j, hj, hsettled, hcases⟩
      · -- a branch that is never taken is gone
        rw [Inst.dst?_mapOperands] at hdst
        rw [Code.endsBlock_mapOperands] at hends
        have hframes := hmeets.next_unwritten hends hdst
        rw [hinst, hnil] at hframes
        exact .inl ⟨_, _, hstep.symm.trans (hgo _ _ _), hframes, same_tick s⟩
      -- the instruction stays, but for operands that are known and a branch that is a jump
      rw [hj] at hinst
      have hlength : (foldedInst f before i).length = 1 := congrArg List.length hinst
      have hnext : Machine.next p (Routine.ofFunction { f with body := (Code.Fold.body f.body).1 })
          (fr.goto (foldedStart f before)) s' j = _ := (hsettled _ _ _).trans hstep'
      refine .inr ⟨j, getElem?_folded hmeets hinst, ?_, ?_⟩
      · rcases hcases with rfl | ⟨l, rfl⟩
        · exact keeps_mapOperands hkeeps
        · exact fun _ _ _ heq => by cases heq
      rw [hnext]
      have hwrite {t : Temp} {v : Int64} {g : Frame} (hdst : i.dst? = some t)
          (hpc : g.pc = fr.pc + 1) (htemps : g.temps = fr.temps.setIfInBounds t v) :
          Folds f S g (g.goto (foldedStart f before + 1)) := by
        have hframes := hmeets.next_written h hdst (fun n hn => ?_) hpc htemps
        · rwa [hlength] at hframes
        · cases hconstant.symm.trans (Code.Fold.constant_of_constants hmeets.body hn hdst)
      refine matches_step hsame.tick rfl rfl rfl (fun o _ => ?_) (fun hdst hends => ?_)
        (fun t v hdst => hwrite hdst rfl rfl) (fun t v hdst => hwrite hdst rfl rfl)
        fun l hl => hmeets.target h hlabels hl _ _
      · cases o <;> rfl
      · have hframes := hmeets.next_unwritten hends hdst
        rwa [hlength] at hframes

end Folding

end MiniC.Machine
