import Mathlib.Logic.Relation
import MiniC.Code.Optimize
import MiniC.Proofs.Code.Flow
/-!
Optimization as a sequence of small rewritings of a body. Main statements: what the optimizer does
is such a sequence, and every rewriting leaves a body orderly.
-/
namespace MiniC.Code

/-- One rewriting of a whole body. -/
inductive Rewrites : List Inst → List Inst → Prop where
  | fold (b) : Rewrites b (Fold.body b).1
  | unreachable (b) : Rewrites b (Prune.unreachable true b)
  | unusedLabels (b) : Rewrites b (Prune.unusedLabels b)
  | jumpsToNext (b) : Rewrites b (Prune.jumpsToNext b)
  | unusedOnce (b) : Rewrites b (Prune.unusedOnce b)

open Relation (ReflTransGen)

theorem rewrites_unusedResults (b : List Inst) : ReflTransGen Rewrites b (Prune.unusedResults b) := by
  induction b using Prune.unusedResults.induct with
  | case1 b h ih =>
    rw [Prune.unusedResults, if_pos h]
    exact .head (.unusedOnce b) ih
  | case2 b h =>
    rw [Prune.unusedResults, if_neg h]

theorem rewrites_prune_round (b : List Inst) : ReflTransGen Rewrites b (Prune.round b) :=
  .head (.unreachable b) (.head (.unusedLabels _) (.head (.jumpsToNext _) (rewrites_unusedResults _)))

theorem rewrites_prune (b : List Inst) : ReflTransGen Rewrites b (Prune.rounds b) := by
  induction b using Prune.rounds.induct with
  | case1 b h ih =>
    rw [Prune.rounds, if_pos h]
    exact (rewrites_prune_round b).trans ih
  | case2 b h =>
    rw [Prune.rounds, if_neg h]

namespace Pass

/-- Passes change the body of a function and nothing else. -/
structure Leaves (f g : Function) : Prop where
  name : g.name = f.name
  params : g.params = f.params
  temps : g.temps = f.temps
  rewrites : ReflTransGen Rewrites f.body g.body

theorem Leaves.refl (f : Function) : Leaves f f := ⟨rfl, rfl, rfl, .refl⟩

theorem Leaves.trans {f g h : Function} (hfg : Leaves f g) (hgh : Leaves g h) : Leaves f h where
  name := hgh.name.trans hfg.name
  params := hgh.params.trans hfg.params
  temps := hgh.temps.trans hfg.temps
  rewrites := hfg.rewrites.trans hgh.rewrites

theorem leaves_run (p : Pass) (f : Function) : Leaves f (p.run f).1 := by
  cases p with
  | fold => exact ⟨rfl, rfl, rfl, .single (.fold f.body)⟩
  | prune => exact ⟨rfl, rfl, rfl, rewrites_prune f.body⟩

theorem leaves_round (ps : List Pass) (f : Function) : Leaves f (round ps f).1 := by
  induction ps generalizing f with
  | nil => exact .refl f
  | cons p ps ih => exact (leaves_run p f).trans (ih _)

theorem leaves_rounds (ps : List Pass) (limit : Nat) (f : Function) :
    Leaves f (rounds ps limit f) := by
  induction limit generalizing f with
  | zero => exact .refl f
  | succ limit ih =>
    rw [rounds]
    split
    · rename_i g more hround
      have hleaves := leaves_round ps f
      rw [hround] at hleaves
      split
      · exact hleaves.trans (ih g)
      · exact hleaves

end Pass

/-! Each rewriting leaves a body orderly. -/

section Orderly

variable {S : Summary} {A A' : Set Temp} {body rest : List Inst} {i : Inst} {l : Label}

/-- A part of an orderly body that keeps the labels it needs and flows. -/
theorem Orderly.sublist {N : Names} {temps : Nat} {data : List Label} {S' : Summary}
    (h : Orderly N temps data S body) (hsub : rest.Sublist body)
    (hlabels : ∀ i ∈ rest, ∀ l, i.target? = some l → .label l ∈ body → .label l ∈ rest)
    (hflows : Flows S' ∅ rest) : Orderly N temps data S' rest where
  labels := h.labels.sublist (hsub.filterMap _)
  targets i hi l hl :=
    mem_labelsOf.mpr (hlabels i hi l hl (mem_labelsOf.mp (h.targets i (hsub.subset hi) l hl)))
  flows := hflows
  fine i hi := h.fine i (hsub.subset hi)

/-! Unreachable code. -/

theorem sublist_unreachable (reached : Bool) (body : List Inst) :
    (Prune.unreachable reached body).Sublist body := by
  induction body generalizing reached with
  | nil => exact List.Sublist.refl _
  | cons i body ih =>
    simp only [Prune.unreachable]
    split
    · exact (ih _).cons_cons i
    · exact (ih _).cons i

theorem label_mem_unreachable (reached : Bool) (h : .label l ∈ body) :
    .label l ∈ Prune.unreachable reached body := by
  induction body generalizing reached with
  | nil => cases h
  | cons i body ih =>
    simp only [Prune.unreachable]
    rcases List.mem_cons.mp h with rfl | h
    · rw [if_pos (by simp [Inst.label?])]
      exact List.mem_cons_self ..
    · split
      · exact List.mem_cons_of_mem _ (ih _ h)
      · exact ih _ h

/-- Where control does not get, everything is available. -/
theorem flows_unreachable {reached : Bool} (hA : reached = false → A = Set.univ)
    (h : Flows S A body) : Flows S A (Prune.unreachable reached body) := by
  induction body generalizing A reached with
  | nil => trivial
  | cons i body ih =>
    simp only [Prune.unreachable]
    split
    · rename_i hreached
      refine ⟨h.1, ih ?_ h.2⟩
      intro hends
      rw [hreached, Bool.true_and, Bool.not_eq_false'] at hends
      cases i <;> cases hends <;> rfl
    · rename_i hreached
      rw [Bool.not_eq_true, Bool.or_eq_false_iff] at hreached
      obtain rfl := hA hreached.1
      exact ih (by simp [hreached]) (h.2.mono (Set.subset_univ _))

/-! Labels that no jump names. -/

theorem label_mem_unusedLabels (h : .label l ∈ body) (hi : i ∈ body) (hl : i.target? = some l) :
    .label l ∈ Prune.unusedLabels body := by
  refine List.mem_filter.mpr ⟨h, ?_⟩
  simp only [Inst.label?, Prune.targets, Std.HashSet.contains_ofList, List.contains_iff_mem]
  exact List.mem_filterMap.mpr ⟨i, hi, hl⟩

/-- Labels may go from code that flows. -/
theorem Flows.filter_labels (p : Inst → Bool) (hp : ∀ i, i.label? = none → p i = true)
    (h : Flows S A body) : Flows S A (body.filter p) := by
  induction body generalizing A with
  | nil => trivial
  | cons i body ih =>
    rw [List.filter_cons]
    split
    · exact ⟨h.1, ih h.2⟩
    · rename_i hi
      cases hlabel : i.label? with
      | none => exact absurd (hp i hlabel) hi
      | some l =>
        obtain rfl : i = .label l := by cases i <;> cases hlabel; rfl
        exact ih (h.2.mono (h.1.label l rfl))

/-! Jumps to the next instruction. -/

/-- Before a label no more is needed than it asks for. -/
theorem Flows.of_nextLabel (h : Flows S A body) (hl : Prune.nextLabel? body = some l)
    (hS : S l ⊆ A') : Flows S A' body := by
  induction body generalizing A A' with
  | nil => trivial
  | cons i body ih =>
    unfold Prune.nextLabel? at hl
    cases i with
    | comment text =>
      refine ⟨⟨nofun, nofun, nofun⟩, ih h.2 hl (hS.trans Set.subset_union_right)⟩
    | label l' =>
      cases hl
      exact ⟨⟨nofun, nofun, fun _ h => by cases h; exact hS⟩, h.2⟩
    | _ => cases hl

theorem flows_jumpsToNext (h : Flows S A body) : Flows S A (Prune.jumpsToNext body) := by
  induction body generalizing A with
  | nil => trivial
  | cons i body ih =>
    simp only [Prune.jumpsToNext]
    split
    · rename_i hnext
      rw [Bool.and_eq_true, beq_iff_eq] at hnext
      obtain ⟨l, hl⟩ := Option.isSome_iff_exists.mp hnext.1
      exact ih (h.2.of_nextLabel (hnext.2 ▸ hl) (h.1.target l hl))
    · exact ⟨h.1, ih h.2⟩

theorem sublist_jumpsToNext (body : List Inst) : (Prune.jumpsToNext body).Sublist body := by
  induction body with
  | nil => exact List.Sublist.refl _
  | cons i body ih =>
    simp only [Prune.jumpsToNext]
    split
    · exact ih.cons i
    · exact ih.cons_cons i

theorem label_mem_jumpsToNext (h : .label l ∈ body) : .label l ∈ Prune.jumpsToNext body := by
  induction body with
  | nil => cases h
  | cons i body ih =>
    simp only [Prune.jumpsToNext]
    rcases List.mem_cons.mp h with rfl | h
    · exact List.mem_cons_self ..
    · split
      · exact ih h
      · exact List.mem_cons_of_mem _ (ih h)

/-! Results that are never read. -/

/-- The temporaries that some instruction reads. -/
def readBy (body : List Inst) : Set Temp := {t | ∃ i ∈ body, .temp t ∈ i.operands}

theorem mem_reads {t : Temp} : (Prune.reads body).contains t = true ↔ t ∈ readBy body := by
  simp only [Prune.reads, Std.HashSet.contains_ofList, List.contains_iff_mem, List.mem_flatMap,
    List.mem_filterMap, readBy, Set.mem_ofPred_eq]
  constructor
  · rintro ⟨i, hi, o, ho, ht⟩
    cases o <;> cases ht
    exact ⟨i, hi, ho⟩
  · rintro ⟨i, hi, ho⟩
    exact ⟨i, hi, _, ho, rfl⟩

/-- What is never read need not be available. -/
theorem Flows.filter_unread (R : Set Temp) (p : Inst → Bool)
    (hp : ∀ i, p i = false → ∃ t, i.dst? = some t ∧ t ∉ R) (hR : readBy body ⊆ R)
    (h : Flows S A body) (hA : A ∩ R ⊆ A') : Flows (fun l => S l ∩ R) A' (body.filter p) := by
  induction body generalizing A A' with
  | nil => trivial
  | cons i body ih =>
    have hread : ∀ t, .temp t ∈ i.operands → t ∈ R :=
      fun t ht => hR ⟨i, List.mem_cons_self .., ht⟩
    have hrest : readBy body ⊆ R := fun t ⟨j, hj, ht⟩ => hR ⟨j, List.mem_cons_of_mem _ hj, ht⟩
    rw [List.filter_cons]
    split
    · refine ⟨⟨?_, ?_, ?_⟩, ih hrest h.2 ?_⟩
      · exact fun t ht => hA ⟨h.1.reads t ht, hread t ht⟩
      · exact fun l hl => (Set.inter_subset_inter_left R (h.1.target l hl)).trans hA
      · exact fun l hl => (Set.inter_subset_inter_left R (h.1.label l hl)).trans hA
      · rintro t ⟨ht, htR⟩
        cases i with
        | label l => exact ⟨ht, htR⟩
        | jump l => trivial
        | ret v => trivial
        | _ => exact ht.imp_right fun ht => hA ⟨ht, htR⟩
    · rename_i hi
      obtain ⟨t, hdst, ht⟩ := hp i (by simpa using hi)
      refine ih hrest h.2 ?_
      rintro t' ⟨ht', htR⟩
      cases i with
      | label l => cases hdst
      | jump l => cases hdst
      | ret v => cases hdst
      | _ =>
        rcases ht' with hself | ht'
        · obtain rfl := Option.some.inj (hdst.symm.trans hself)
          exact absurd htR ht
        · exact hA ⟨ht', htR⟩

/-! Folding. -/

/-- What folding makes of an instruction: a constant, the instruction with the constants that are
known, or, from a branch, a jump or nothing. -/
inductive Folded (known : Fold.Known) (i : Inst) : List Inst → Prop where
  | constant {dst n} : Fold.constant? (i.mapOperands (Fold.resolve known)) = some (dst, n) →
      Folded known i [.copy dst (.const n)]
  | operands : Folded known i [i.mapOperands (Fold.resolve known)]
  | taken {target} : i.target? = some target → Folded known i [.jump target]
  | skipped {target} : i.target? = some target → i.endsBlock = false → Folded known i []

theorem settle_cases (i : Inst) :
    (Fold.settle i).1 = [i] ∨ ∃ target, i.target? = some target ∧ i.endsBlock = false ∧
      ((Fold.settle i).1 = [.jump target] ∨ (Fold.settle i).1 = []) := by
  fun_cases Fold.settle i with
  | case1 n target =>
    refine .inr ⟨target, rfl, rfl, ?_⟩
    split
    · exact .inl rfl
    · exact .inr rfl
  | case2 n target =>
    refine .inr ⟨target, rfl, rfl, ?_⟩
    split
    · exact .inl rfl
    · exact .inr rfl
  | case3 => exact .inl rfl

theorem endsBlock_mapOperands (f : Operand → Operand) (i : Inst) :
    (i.mapOperands f).endsBlock = i.endsBlock := by
  cases i <;> rfl

theorem label?_mapOperands (f : Operand → Operand) (i : Inst) :
    (i.mapOperands f).label? = i.label? := by
  cases i <;> rfl

theorem folded_inst (counts : Fold.Counts) (known : Fold.Known) (i : Inst) :
    Folded known i (Fold.inst counts known i).insts := by
  unfold Fold.inst
  simp only
  split
  · exact .constant ‹_›
  · rcases settle_cases (i.mapOperands (Fold.resolve known)) with h | ⟨target, ht, hends, h | h⟩
    · rw [h]
      exact .operands
    · rw [h]
      exact .taken (by rwa [Inst.target?_mapOperands] at ht)
    · rw [h]
      exact .skipped (by rwa [Inst.target?_mapOperands] at ht)
        (by rwa [endsBlock_mapOperands] at hends)

theorem dst?_of_constant? {i : Inst} {dst : Temp} {n : Int64}
    (h : Fold.constant? i = some (dst, n)) : i.dst? = some dst := by
  fun_cases Fold.constant? i
  all_goals simp_all [Fold.constant?, Inst.dst?]

theorem mem_of_mem_resolved {known : Fold.Known} {o : Operand}
    (h : o ∈ (i.mapOperands (Fold.resolve known)).operands) : o ∈ i.operands ∨ ∃ n, o = .const n := by
  rw [Inst.operands_mapOperands] at h
  obtain ⟨o', ho', rfl⟩ := List.mem_map.mp h
  cases o' with
  | temp t =>
    simp only [Fold.resolve]
    split
    · exact .inr ⟨_, rfl⟩
    · exact .inl ho'
  | const n => exact .inr ⟨n, rfl⟩
  | data l => exact .inl ho'

theorem after_mapOperands (f : Operand → Operand) (i : Inst) :
    after S A (i.mapOperands f) = after S A i := by
  cases i <;> rfl

/-- What folding makes of an instruction asks for no more, and leaves no less. -/
theorem Folded.flows {known : Fold.Known} {is : List Inst} (h : Folded known i is)
    (hi : Allows S A i) : Flows S A is ∧ after S A i ⊆ afterAll S A is := by
  cases h with
  | @constant dst n hconstant =>
    have hdst : i.dst? = some dst := by simpa using dst?_of_constant? hconstant
    refine ⟨⟨⟨by simp [Inst.operands], nofun, nofun⟩, trivial⟩, ?_⟩
    cases i with
    | label l => cases hdst
    | jump l => cases hdst
    | ret v => cases hdst
    | _ => exact Set.union_subset_union_left A fun t ht => hdst.symm.trans ht
  | operands =>
    refine ⟨⟨⟨fun t ht => hi.reads t ((mem_of_mem_resolved ht).resolve_right nofun), ?_, ?_⟩,
      trivial⟩, ?_⟩
    · rw [Inst.target?_mapOperands]
      exact hi.target
    · rw [label?_mapOperands]
      exact hi.label
    · exact (after_mapOperands _ i).symm.subset
  | @taken target ht =>
    exact ⟨⟨⟨by simp [Inst.operands], fun l hl => by cases hl; exact hi.target _ ht, nofun⟩, trivial⟩,
      Set.subset_univ _⟩
  | skipped ht hends =>
    refine ⟨trivial, ?_⟩
    cases i <;> cases ht <;> simp_all [after, Inst.endsBlock, Inst.dst?, afterAll]

theorem flows_insts (counts : Fold.Counts) (known : Fold.Known) (h : Flows S A body) :
    Flows S A (Fold.insts counts known body).1 := by
  induction body generalizing A known with
  | nil => trivial
  | cons i body ih =>
    obtain ⟨hhere, hafter⟩ := (folded_inst counts known i).flows h.1
    exact flows_append.mpr ⟨hhere, (ih _ h.2).mono hafter⟩

/-- What holds of all that an instruction may be folded to holds of the folded body. -/
theorem forall_mem_insts (counts : Fold.Counts) {P Q : Inst → Prop}
    (hP : ∀ known i is, Folded known i is → P i → ∀ j ∈ is, Q j) (known : Fold.Known)
    (h : ∀ i ∈ body, P i) : ∀ j ∈ (Fold.insts counts known body).1, Q j := by
  induction body generalizing known with
  | nil => nofun
  | cons i body ih =>
    intro j hj
    rcases List.mem_append.mp hj with hj | hj
    · exact hP known i _ (folded_inst counts known i) (h i (List.mem_cons_self ..)) j hj
    · exact ih _ (fun i hi => h i (List.mem_cons_of_mem _ hi)) j hj

theorem labelsOf_insts (counts : Fold.Counts) (known : Fold.Known) (body : List Inst) :
    labelsOf (Fold.insts counts known body).1 = labelsOf body := by
  induction body generalizing known with
  | nil => rfl
  | cons i body ih =>
    have hhere {is : List Inst} (h : Folded known i is) : labelsOf is = i.label?.toList := by
      cases h with
      | @constant dst n hconstant =>
        have hdst : i.dst? = some dst := by simpa using dst?_of_constant? hconstant
        cases i <;> first | rfl | cases hdst
      | operands => rw [labelsOf_cons, label?_mapOperands]; exact List.append_nil _
      | taken ht => cases i <;> cases ht <;> rfl
      | skipped ht => cases i <;> cases ht <;> rfl
    show labelsOf (_ ++ _) = _
    rw [labelsOf, List.filterMap_append, labelsOf_cons]
    exact congrArg₂ _ (hhere (folded_inst counts known i)) (ih _)

theorem Folded.fine {N : Names} {temps : Nat} {data : List Label} {known : Fold.Known}
    {is : List Inst} (h : Folded known i is) (hi : Fine N temps data i) :
    ∀ j ∈ is, Fine N temps data j := by
  intro j hj
  cases h with
  | @constant dst n hconstant =>
    obtain rfl := List.mem_singleton.mp hj
    have hdst : i.dst? = some dst := by simpa using dst?_of_constant? hconstant
    exact ⟨fun t ht => hi.dst t (hdst.trans ht), by simp [Inst.operands], by simp [Inst.operands],
      trivial⟩
  | operands =>
    obtain rfl := List.mem_singleton.mp hj
    refine ⟨fun t ht => hi.dst t (by simpa using ht),
      fun t ht => hi.temps t ((mem_of_mem_resolved ht).resolve_right nofun),
      fun l hl => hi.data l ((mem_of_mem_resolved hl).resolve_right nofun), ?_⟩
    have hnames := hi.names
    cases i with
    | call dst callee args => simpa [Inst.mapOperands, permits] using hnames
    | _ => exact hnames
  | taken ht =>
    obtain rfl := List.mem_singleton.mp hj
    exact ⟨nofun, by simp [Inst.operands], by simp [Inst.operands], trivial⟩
  | skipped => cases hj

theorem Folded.targets {known : Fold.Known} {is : List Inst} (h : Folded known i is) :
    ∀ j ∈ is, ∀ l, j.target? = some l → i.target? = some l := by
  intro j hj l hl
  cases h with
  | constant hconstant =>
    obtain rfl := List.mem_singleton.mp hj
    cases hl
  | operands =>
    obtain rfl := List.mem_singleton.mp hj
    rwa [Inst.target?_mapOperands] at hl
  | taken ht =>
    obtain rfl := List.mem_singleton.mp hj
    cases hl
    exact ht
  | skipped => cases hj

theorem orderly_fold {N : Names} {temps : Nat} {data : List Label}
    (h : Orderly N temps data S body) : Orderly N temps data S (Fold.body body).1 where
  labels := by
    rw [Fold.body, labelsOf_insts]
    exact h.labels
  targets := by
    refine forall_mem_insts _ (P := fun i => ∀ l, i.target? = some l → l ∈ labelsOf body) ?_ _ h.targets
    intro known i is hfolded hi j hj l hl
    rw [Fold.body, labelsOf_insts]
    exact hi l (hfolded.targets j hj l hl)
  flows := flows_insts _ _ h.flows
  fine := forall_mem_insts _ (fun _ _ _ hfolded hi => hfolded.fine hi) _ h.fine

/-- Every rewriting leaves a body orderly. -/
theorem Orderly.rewrites {N : Names} {temps : Nat} {data : List Label}
    (h : Orderly N temps data S body) (hr : Rewrites body rest) :
    ∃ S', Orderly N temps data S' rest := by
  cases hr with
  | fold => exact ⟨S, orderly_fold h⟩
  | unreachable =>
    exact ⟨S, h.sublist (sublist_unreachable _ _) (fun _ _ _ _ hl => label_mem_unreachable _ hl)
      (flows_unreachable nofun h.flows)⟩
  | unusedLabels =>
    refine ⟨S, h.sublist List.filter_sublist (fun i hi l hl hmem => ?_) ?_⟩
    · exact label_mem_unusedLabels hmem (List.mem_of_mem_filter hi) hl
    · exact h.flows.filter_labels _ fun i hi => by simp [hi]
  | jumpsToNext =>
    exact ⟨S, h.sublist (sublist_jumpsToNext _) (fun _ _ _ _ hl => label_mem_jumpsToNext hl)
      (flows_jumpsToNext h.flows)⟩
  | unusedOnce =>
    refine ⟨fun l => S l ∩ readBy body,
      h.sublist List.filter_sublist (fun i hi l hl hmem => ?_) ?_⟩
    · exact List.mem_filter.mpr ⟨hmem, rfl⟩
    · refine h.flows.filter_unread (readBy body) _ ?_ subset_rfl (by simp)
      intro i hi
      cases hdst : i.dst? with
      | none => simp [hdst] at hi
      | some t =>
        simp only [hdst, Bool.or_eq_false_iff] at hi
        exact ⟨t, rfl, fun ht => by simp [mem_reads.mpr ht] at hi⟩

theorem Orderly.rewritten {N : Names} {temps : Nat} {data : List Label}
    (h : Orderly N temps data S body) (hr : ReflTransGen Rewrites body rest) :
    ∃ S', Orderly N temps data S' rest := by
  induction hr with
  | refl => exact ⟨S, h⟩
  | tail _ hstep ih =>
    obtain ⟨S', h'⟩ := ih
    exact h'.rewrites hstep

/-- No rewriting makes an allocation. -/
theorem alloca_mem_of_rewrites {body' : List Inst} (hr : Rewrites body body') {dst : Temp} {size align : Nat}
    (h : .alloca dst size align ∈ body') : .alloca dst size align ∈ body := by
  cases hr with
  | fold =>
    by_contra hnot
    refine forall_mem_insts _ (P := (· ∈ body)) (Q := (· ≠ .alloca dst size align)) ?_ _
      (fun i hi => hi) _ h rfl
    rintro known i is hfolded hi j hj rfl
    cases hfolded with
    | operands =>
      obtain hmapped := List.mem_singleton.mp hj
      cases i <;> cases hmapped
      exact hnot hi
    | constant => cases List.mem_singleton.mp hj
    | taken => cases List.mem_singleton.mp hj
    | skipped => cases hj
  | unreachable => exact (sublist_unreachable _ _).subset h
  | unusedLabels => exact List.mem_of_mem_filter h
  | jumpsToNext => exact (sublist_jumpsToNext _).subset h
  | unusedOnce => exact List.mem_of_mem_filter h

theorem alloca_mem_of_rewritten {body' : List Inst} (hr : ReflTransGen Rewrites body body')
    {dst : Temp} {size align : Nat} (h : .alloca dst size align ∈ body') :
    .alloca dst size align ∈ body := by
  induction hr with
  | refl => exact h
  | tail _ hstep ih => exact ih (alloca_mem_of_rewrites hstep h)

end Orderly

end MiniC.Code
