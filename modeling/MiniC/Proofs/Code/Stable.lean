import MiniC.Proofs.Code.Passes
/-!
When a pass has nothing left to do. Main statements: a pass reports a change exactly if it changes the
body, the same pass finds nothing to do right after, and what it leaves does no more work.
-/
namespace MiniC.Code

/-- Control may go on, or to a label. -/
def Inst.isBranch : Inst → Bool
  | .branchIf .. | .branchUnless .. => true
  | _ => false

theorem Inst.isBranch_eq (i : Inst) : i.isBranch = (i.target?.isSome && !i.endsBlock) := by
  cases i <;> rfl

theorem Inst.mapOperands_eq_self_iff {f : Operand → Operand} {i : Inst} :
    i.mapOperands f = i ↔ ∀ o ∈ i.operands, f o = o := by
  cases i with
  | call dst callee args =>
    have hargs : args.map f = args ↔ ∀ o ∈ args, f o = o := by
      have h := List.map_inj_left (l := args) (f := f) (g := id)
      rwa [List.map_id] at h
    simp [mapOperands, operands, hargs]
  | ret value => cases value <;> simp [mapOperands, operands]
  | _ => simp [mapOperands, operands]

namespace Fold

variable {counts counts' : Counts} {known known' : Known} {body : List Inst} {i j : Inst} {t : Temp}

/-! What folding reports. -/

theorem resolves_eq_false_iff {o : Operand} : resolves known o = false ↔ resolve known o = o := by
  cases o with
  | temp t =>
    rw [resolves, resolve, Std.HashMap.contains_eq_isSome_getElem?]
    cases known[t]? with
    | none => simp
    | some n => simp
  | const n => exact iff_of_true rfl rfl
  | data l => exact iff_of_true rfl rfl

theorem reads_nothing_iff :
    i.operands.any (resolves known) = false ↔ i.mapOperands (resolve known) = i := by
  rw [Inst.mapOperands_eq_self_iff, List.any_eq_false]
  exact forall₂_congr fun o _ => by rw [← resolves_eq_false_iff, Bool.not_eq_true]

theorem resolve_resolve (o : Operand) : resolve known (resolve known o) = resolve known o := by
  cases o with
  | temp t =>
    cases ht : known[t]? with
    | none => simp [resolve, ht]
    | some n => simp [resolve, ht]
  | const n => rfl
  | data l => rfl

/-- A branch that is settled is no branch any more, and leaves nothing or a jump. -/
theorem settle_of_settled (h : (settle i).2 = true) : i.isBranch = true ∧
    ((settle i).1 = [] ∨ ∃ l, i.target? = some l ∧ (settle i).1 = [.jump l]) := by
  fun_cases settle i with
  | case1 n l =>
    refine ⟨rfl, ?_⟩
    by_cases hn : (n != 0) = true
    · exact .inr ⟨l, rfl, if_pos hn⟩
    · exact .inl (if_neg hn)
  | case2 n l =>
    refine ⟨rfl, ?_⟩
    by_cases hn : (n == 0) = true
    · exact .inr ⟨l, rfl, if_pos hn⟩
    · exact .inl (if_neg hn)
  | case3 h₁ h₂ =>
    simp [settle] at h

theorem settle_of_not_settled (h : (settle i).2 = false) : (settle i).1 = [i] := by
  fun_cases settle i with
  | case1 n l => cases h
  | case2 n l => cases h
  | case3 => rfl

theorem inst_of_constant {dst : Temp} {n : Int64}
    (h : constant? (i.mapOperands (resolve known)) = some (dst, n)) :
    inst counts known i =
      ⟨if counts.getD dst 0 = 1 then known.insert dst n else known, [.copy dst (.const n)],
        i.operands.any (resolves known) || i.mapOperands (resolve known) != .copy dst (.const n)⟩ := by
  unfold inst
  simp only [h]

theorem inst_of_not_constant (h : constant? (i.mapOperands (resolve known)) = none) :
    inst counts known i = ⟨known, (settle (i.mapOperands (resolve known))).1,
      i.operands.any (resolves known) || (settle (i.mapOperands (resolve known))).2⟩ := by
  unfold inst
  simp only [h]

/-- An instruction that folding reports as unchanged is left as it is. -/
theorem unchanged_inst_iff :
    (inst counts known i).changed = false ↔ (inst counts known i).insts = [i] := by
  cases hconstant : constant? (i.mapOperands (resolve known)) with
  | some x =>
    obtain ⟨dst, n⟩ := x
    rw [inst_of_constant hconstant, Bool.or_eq_false_iff, reads_nothing_iff, bne_eq_false_iff_eq]
    constructor
    · rintro ⟨hi, hcopy⟩
      rw [hi] at hcopy
      rw [hcopy]
    · intro hcopy
      obtain rfl := List.singleton_inj.mp hcopy
      exact ⟨rfl, rfl⟩
  | none =>
    rw [inst_of_not_constant hconstant, Bool.or_eq_false_iff, reads_nothing_iff]
    constructor
    · rintro ⟨hi, hsettled⟩
      rw [settle_of_not_settled hsettled, hi]
    · intro hsame
      cases hsettled : (settle (i.mapOperands (resolve known))).2 with
      | false =>
        rw [settle_of_not_settled hsettled] at hsame
        exact ⟨List.singleton_inj.mp hsame, rfl⟩
      | true =>
        obtain ⟨hbranch, hnone | ⟨l, -, hjump⟩⟩ := settle_of_settled hsettled
        · rw [hnone] at hsame
          cases hsame
        · obtain rfl := List.singleton_inj.mp (hjump.symm.trans hsame)
          cases hbranch

theorem length_inst_le (counts : Counts) (known : Known) (i : Inst) :
    (inst counts known i).insts.length ≤ 1 := by
  have h := folded_inst counts known i
  generalize (inst counts known i).insts = is at h ⊢
  cases h with
  | skipped => exact Nat.zero_le 1
  | _ => exact Nat.le_refl 1

theorem length_insts_le (counts : Counts) (known : Known) (body : List Inst) :
    (insts counts known body).1.length ≤ body.length := by
  induction body generalizing known with
  | nil => exact Nat.le_refl 0
  | cons i body ih =>
    have hhere := length_inst_le counts known i
    have hrest := ih (inst counts known i).known
    show (_ ++ _ : List Inst).length ≤ _
    rw [List.length_append, List.length_cons]
    omega

/-- Folding reports a change exactly if it makes one. -/
theorem unchanged_insts_iff (counts : Counts) (known : Known) (body : List Inst) :
    (insts counts known body).2 = false ↔ (insts counts known body).1 = body := by
  induction body generalizing known with
  | nil => exact iff_of_true rfl rfl
  | cons i body ih =>
    have ih := ih (inst counts known i).known
    show (_ || _) = false ↔ _ ++ _ = i :: body
    rw [Bool.or_eq_false_iff, unchanged_inst_iff, ih]
    constructor
    · rintro ⟨hi, hbody⟩
      rw [hi, hbody]
      rfl
    · intro h
      -- nothing is added, so what is made of the first instruction is one instruction
      have hlength := congrArg List.length h
      have hrest := length_insts_le counts (inst counts known i).known body
      have hhere := length_inst_le counts known i
      rw [List.length_append, List.length_cons] at hlength
      exact List.append_inj h (by rw [List.length_singleton]; omega)

/-! Folding again. -/

/-- The writes of each temporary stay as many as they were. -/
theorem countP_dst_insts (counts : Counts) (known : Known) (body : List Inst) (t : Temp) :
    (insts counts known body).1.countP (·.dst? == some t) = body.countP (·.dst? == some t) := by
  induction body generalizing known with
  | nil => rfl
  | cons i body ih =>
    have hhere {is : List Inst} (h : Folded known i is) :
        is.countP (·.dst? == some t) = [i].countP (·.dst? == some t) := by
      rw [List.countP_singleton]
      cases h with
      | constant hconstant =>
        have hdst := dst?_of_constant? hconstant
        rw [Inst.dst?_mapOperands] at hdst
        rw [List.countP_singleton, hdst]
        rfl
      | operands => rw [List.countP_singleton, Inst.dst?_mapOperands]
      | taken htarget => cases i <;> cases htarget <;> rfl
      | skipped htarget => cases i <;> cases htarget <;> rfl
    show (_ ++ _ : List Inst).countP _ = _
    rw [List.countP_append, hhere (folded_inst counts known i), ih, ← List.countP_append]
    rfl

/-- What folding made of an instruction is left alone by folding with the same constants, and adds the
same constants to them. -/
theorem inst_again (hcounts : ∀ t, counts'.getD t 0 = counts.getD t 0)
    (hknown : ∀ t : Temp, known'[t]? = known[t]?) :
    ((inst counts known i).insts = [] ∧ (inst counts known i).known = known) ∨
      ∃ j, (inst counts known i).insts = [j] ∧ (inst counts' known' j).changed = false ∧
        ∀ t : Temp, (inst counts' known' j).known[t]? = (inst counts known i).known[t]? := by
  have hresolve : resolve known' = resolve known := by
    funext o
    cases o with
    | temp t => rw [resolve, resolve, hknown]
    | _ => rfl
  have hresolved : (i.mapOperands (resolve known)).mapOperands (resolve known) =
      i.mapOperands (resolve known) := by
    rw [Inst.mapOperands_eq_self_iff, Inst.operands_mapOperands]
    intro o ho
    obtain ⟨o', -, rfl⟩ := List.mem_map.mp ho
    exact resolve_resolve o'
  cases hconstant : constant? (i.mapOperands (resolve known)) with
  | some x =>
    obtain ⟨dst, n⟩ := x
    rw [inst_of_constant hconstant]
    refine .inr ⟨.copy dst (.const n), rfl, unchanged_inst_iff.mpr rfl, fun t => ?_⟩
    show (if counts'.getD dst 0 = 1 then known'.insert dst n else known')[t]? =
      (if counts.getD dst 0 = 1 then known.insert dst n else known)[t]?
    rw [hcounts]
    split
    · rw [Std.HashMap.getElem?_insert, Std.HashMap.getElem?_insert, hknown]
    · exact hknown t
  | none =>
    rw [inst_of_not_constant hconstant]
    generalize i.mapOperands (resolve known) = j at hresolved hconstant ⊢
    cases hsettled : (settle j).2 with
    | false =>
      have hsame : inst counts' known' j = ⟨known', [j], j.operands.any (resolves known') || false⟩ := by
        rw [inst_of_not_constant (by rwa [hresolve, hresolved]), hresolve, hresolved, hsettled,
          settle_of_not_settled hsettled]
      refine .inr ⟨j, settle_of_not_settled hsettled, ?_, fun t => ?_⟩
      · rw [unchanged_inst_iff, hsame]
      · rw [hsame]
        exact hknown t
    | true =>
      obtain ⟨-, hnone | ⟨l, -, hjump⟩⟩ := settle_of_settled hsettled
      · exact .inl ⟨hnone, rfl⟩
      · exact .inr ⟨.jump l, hjump, rfl, hknown⟩

/-- What is left of a body by folding is not folded any further. -/
theorem insts_again (hcounts : ∀ t, counts'.getD t 0 = counts.getD t 0)
    (hknown : ∀ t : Temp, known'[t]? = known[t]?) (body : List Inst) :
    (insts counts' known' (insts counts known body).1).2 = false := by
  induction body generalizing known known' with
  | nil => rfl
  | cons i body ih =>
    show (insts counts' known' (_ ++ _)).2 = false
    rcases inst_again (i := i) hcounts hknown with ⟨hnone, hsame⟩ | ⟨j, hj, hunchanged, hsame⟩
    · rw [hnone, hsame]
      exact ih hknown
    · rw [hj]
      show (_ || _) = false
      rw [hunchanged]
      exact ih hsame

theorem body_again (b : List Inst) : (Fold.body (Fold.body b).1).2 = false := by
  refine insts_again (fun t => ?_) (fun _ => rfl) b
  rw [getD_countWrites, getD_countWrites, Fold.body, countP_dst_insts]

/-- Folding makes work of work only. -/
theorem work_insts_le (counts : Counts) (known : Known) (body : List Inst) :
    (insts counts known body).1.countP (·.isWork) ≤ body.countP (·.isWork) := by
  induction body generalizing known with
  | nil => exact Nat.le_refl 0
  | cons i body ih =>
    have hhere {is : List Inst} (h : Folded known i is) :
        is.countP (·.isWork) ≤ [i].countP (·.isWork) := by
      cases h with
      | constant hconstant =>
        have hdst := dst?_of_constant? hconstant
        rw [Inst.dst?_mapOperands] at hdst
        cases i <;> cases hdst <;> exact Nat.le_refl 1
      | operands => cases i <;> exact Nat.le_refl _
      | taken htarget => cases i <;> cases htarget <;> exact Nat.le_refl 1
      | skipped => exact Nat.zero_le _
    have hi := hhere (folded_inst counts known i)
    have hbody := ih (inst counts known i).known
    show (_ ++ _ : List Inst).countP _ ≤ (i :: body).countP _
    rw [List.countP_append, List.countP_cons]
    rw [List.countP_singleton] at hi
    omega

end Fold

namespace Prune

variable {b : List Inst}

/-! What pruning reports. -/

theorem unusedResults_of_lt (h : (unusedOnce b).length < b.length) :
    unusedResults b = unusedResults (unusedOnce b) := by
  rw [unusedResults, if_pos h]

theorem unusedResults_of_not_lt (h : ¬ (unusedOnce b).length < b.length) : unusedResults b = b := by
  rw [unusedResults, if_neg h]

theorem rounds_of_lt (h : (round b).length < b.length) : rounds b = rounds (round b) := by
  rw [rounds, if_pos h]

theorem rounds_of_not_lt (h : ¬ (round b).length < b.length) : rounds b = b := by
  rw [rounds, if_neg h]

theorem sublist_unusedResults (b : List Inst) : (unusedResults b).Sublist b := by
  induction b using unusedResults.induct with
  | case1 b h ih =>
    rw [unusedResults_of_lt h]
    exact ih.trans List.filter_sublist
  | case2 b h =>
    rw [unusedResults_of_not_lt h]

theorem unusedOnce_unusedResults (b : List Inst) :
    unusedOnce (unusedResults b) = unusedResults b := by
  induction b using unusedResults.induct with
  | case1 b h ih =>
    rw [unusedResults_of_lt h]
    exact ih
  | case2 b h =>
    rw [unusedResults_of_not_lt h]
    exact List.filter_sublist.eq_of_length_le (Nat.le_of_not_lt h)

theorem sublist_round (b : List Inst) : (round b).Sublist b :=
  (sublist_unusedResults _).trans ((sublist_jumpsToNext _).trans
    (List.filter_sublist.trans (sublist_unreachable true b)))

theorem sublist_rounds (b : List Inst) : (rounds b).Sublist b := by
  induction b using rounds.induct with
  | case1 b h ih =>
    rw [rounds_of_lt h]
    exact ih.trans (sublist_round b)
  | case2 b h =>
    rw [rounds_of_not_lt h]

theorem sublist_rounds_round (b : List Inst) : (rounds b).Sublist (round b) := by
  by_cases h : (round b).length < b.length
  · rw [rounds_of_lt h]
    exact sublist_rounds _
  · rw [rounds_of_not_lt h, (sublist_round b).eq_of_length_le (Nat.le_of_not_lt h)]

/-- Pruning ends with a round that removes nothing. -/
theorem round_rounds (b : List Inst) : round (rounds b) = rounds b := by
  induction b using rounds.induct with
  | case1 b h ih =>
    rw [rounds_of_lt h]
    exact ih
  | case2 b h =>
    rw [rounds_of_not_lt h]
    exact (sublist_round b).eq_of_length_le (Nat.le_of_not_lt h)

theorem rounds_of_round (h : round b = b) : rounds b = b :=
  rounds_of_not_lt (by rw [h]; exact Nat.lt_irrefl _)

/-- Pruning reports a change exactly if it makes one. -/
theorem unchanged_body_iff (b : List Inst) : (body b).2 = false ↔ (body b).1 = b := by
  show ((rounds b).length != b.length) = false ↔ rounds b = b
  rw [bne_eq_false_iff_eq]
  exact ⟨(sublist_rounds b).eq_of_length, fun h => by rw [h]⟩

theorem body_again (b : List Inst) : (body (body b).1).2 = false :=
  (unchanged_body_iff _).mpr (rounds_of_round (round_rounds b))

end Prune

namespace Pass

/-- No pass has anything left to do in the function. -/
def Stable (f : Function) : Prop := ∀ p : Pass, (p.run f).2 = false

variable {p : Pass} {f : Function}

theorem run_body (p : Pass) (f : Function) : (p.run f).1 = { f with body := (p.body f.body).1 } := rfl

/-- A pass reports a change exactly if it makes one. -/
theorem unchanged_run_iff (p : Pass) (f : Function) : (p.run f).2 = false ↔ (p.run f).1 = f := by
  have hbody : (p.body f.body).2 = false ↔ (p.body f.body).1 = f.body := by
    cases p with
    | fold => exact Fold.unchanged_insts_iff _ _ _
    | prune => exact Prune.unchanged_body_iff _
  refine hbody.trans ⟨fun h => ?_, fun h => congrArg Function.body h⟩
  rw [run_body, h]

/-- A pass finds nothing to do right after it has run. -/
theorem run_again (p : Pass) (f : Function) : (p.run (p.run f).1).2 = false := by
  cases p with
  | fold => exact Fold.body_again f.body
  | prune => exact Prune.body_again f.body

theorem work_run_le (p : Pass) (f : Function) : (p.run f).1.work ≤ f.work := by
  cases p with
  | fold => exact Fold.work_insts_le _ _ _
  | prune => exact (Prune.sublist_rounds f.body).countP_le

end Pass
end MiniC.Code
