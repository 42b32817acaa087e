import Mathlib.Logic.Function.Iterate
import MiniC.Proofs.Code.Stable
/-!
Rounds of folding and pruning. Main statements: a round on pruned code removes a branch, or else nothing is
left to do after it; so a function is stable after two rounds more than it has branches, and what the
optimizer leaves is stable exactly if its limit on rounds is enough for the function.
-/
namespace MiniC.Code

def branches (body : List Inst) : Nat := body.countP (·.isBranch)

/-- How many conditional branches a function has. -/
def Function.branches (f : Function) : Nat := Code.branches f.body

section Tidying

variable {body body' rest : List Inst} {i j : Inst}

/-! Code that control goes through in the same way. -/

/-- Control does the same at both. -/
structure Alike (i j : Inst) : Prop where
  label : j.label? = i.label?
  target : j.target? = i.target?
  comment : j.isComment = i.isComment
  ends : j.endsBlock = i.endsBlock

theorem alike_copy {dst : Temp} (o : Operand) (h : i.dst? = some dst) : Alike i (.copy dst o) := by
  cases i with
  | label | store | jump | branchIf | branchUnless | ret | comment => cases h
  | _ => exact ⟨rfl, rfl, rfl, rfl⟩

theorem alike_mapOperands (f : Operand → Operand) (i : Inst) : Alike i (i.mapOperands f) := by
  cases i <;> exact ⟨rfl, rfl, rfl, rfl⟩

/-- Folding leaves an instruction as it is for control, or takes a branch away. -/
theorem Folded.alike {known : Fold.Known} {is : List Inst} (h : Folded known i is) :
    (∃ j, is = [j] ∧ Alike i j) ∨ branches is < branches [i] := by
  cases h with
  | constant hconstant =>
    have hdst := dst?_of_constant? hconstant
    rw [Inst.dst?_mapOperands] at hdst
    exact .inl ⟨_, rfl, alike_copy _ hdst⟩
  | operands => exact .inl ⟨_, rfl, alike_mapOperands _ i⟩
  | taken htarget =>
    cases i with
    | jump l => exact .inl ⟨_, rfl, rfl, htarget.symm, rfl, rfl⟩
    | branchIf | branchUnless => exact .inr Nat.zero_lt_one
    | _ => cases htarget
  | skipped htarget hends =>
    cases i with
    | jump l => cases hends
    | branchIf | branchUnless => exact .inr Nat.zero_lt_one
    | _ => cases htarget

theorem Alike.branches_eq (h : Alike i j) : branches [j] = branches [i] := by
  rw [branches, branches, List.countP_singleton, List.countP_singleton, Inst.isBranch_eq,
    Inst.isBranch_eq, h.target, h.ends]

theorem branches_append (b b' : List Inst) : branches (b ++ b') = branches b + branches b' :=
  List.countP_append

theorem branches_le_of_sublist (h : body.Sublist body') : branches body ≤ branches body' := h.countP_le

theorem branches_insts_le (counts : Fold.Counts) (known : Fold.Known) (body : List Inst) :
    branches (Fold.insts counts known body).1 ≤ branches body := by
  induction body generalizing known with
  | nil => exact Nat.le_refl 0
  | cons i body ih =>
    have hrest := ih (Fold.inst counts known i).known
    have hhere : branches (Fold.inst counts known i).insts ≤ branches [i] := by
      rcases (folded_inst counts known i).alike with ⟨j, hj, halike⟩ | hfewer
      · rw [hj, halike.branches_eq]
      · exact hfewer.le
    show branches (_ ++ _) ≤ branches ([i] ++ body)
    rw [branches_append, branches_append]
    omega

theorem alike_or_fewer (counts : Fold.Counts) (known : Fold.Known) (body : List Inst) :
    List.Forall₂ Alike body (Fold.insts counts known body).1 ∨
      branches (Fold.insts counts known body).1 < branches body := by
  induction body generalizing known with
  | nil => exact .inl .nil
  | cons i body ih =>
    show List.Forall₂ Alike ([i] ++ body) (_ ++ _) ∨ branches (_ ++ _) < branches ([i] ++ body)
    rw [branches_append, branches_append]
    have hrest := branches_insts_le counts (Fold.inst counts known i).known body
    rcases (folded_inst counts known i).alike with ⟨j, hj, halike⟩ | hfewer
    · rw [hj, halike.branches_eq]
      rcases ih (Fold.inst counts known i).known with hsame | hfewer
      · exact .inl (.cons halike hsame)
      · exact .inr (Nat.add_lt_add_left hfewer _)
    · exact .inr (by omega)

/-! Code in which only results and branches are left to prune. -/

/-- No jump comes right before its label; conditional branches may. -/
def Leaps : List Inst → Prop
  | [] => True
  | i :: rest => (∀ l, i = .jump l → Prune.nextLabel? rest ≠ some l) ∧ Leaps rest

/-- Control reaches all the code, all labels are used, and all jumps go somewhere else. -/
structure Tidy (body : List Inst) : Prop where
  reached : Prune.unreachable true body = body
  labels : Prune.unusedLabels body = body
  leaps : Leaps body

theorem unreachable_cons_eq_self_iff {reached : Bool} :
    Prune.unreachable reached (i :: rest) = i :: rest ↔
      (reached || i.label?.isSome) = true ∧ Prune.unreachable (!i.endsBlock) rest = rest := by
  rw [Prune.unreachable]
  cases hreached : reached || i.label?.isSome with
  | true => simp
  | false =>
    simp only [Bool.false_and, Bool.false_eq_true, if_false, false_and, iff_false]
    intro h
    have hle := (sublist_unreachable false rest).length_le
    rw [h, List.length_cons] at hle
    omega

theorem leaps_of_jumpsToNext (h : Prune.jumpsToNext body = body) : Leaps body := by
  induction body with
  | nil => trivial
  | cons i rest ih =>
    rw [Prune.jumpsToNext] at h
    split at h
    · have hle := (sublist_jumpsToNext rest).length_le
      rw [h, List.length_cons] at hle
      omega
    · rename_i hnot
      refine ⟨?_, ih (List.cons.inj h).2⟩
      rintro l rfl hnext
      simp [Inst.target?, hnext] at hnot

/-- Of tidy code, only branches are left out as jumps to the next instruction. -/
theorem jumpsToNext_of_leaps (h : Leaps body) :
    Prune.jumpsToNext body = body ∨ branches (Prune.jumpsToNext body) < branches body := by
  induction body with
  | nil => exact .inl rfl
  | cons i rest ih =>
    obtain ⟨hjump, hrest⟩ := h
    rw [Prune.jumpsToNext]
    show _ ∨ _ < branches ([i] ++ rest)
    rw [branches_append]
    split
    · rename_i hnext
      rw [Bool.and_eq_true, beq_iff_eq] at hnext
      have hbranch : branches [i] = 1 := by
        cases i with
        | jump l => exact absurd hnext.2.symm (hjump l rfl)
        | branchIf | branchUnless => rfl
        | _ => cases hnext.1
      have hle := branches_le_of_sublist (sublist_jumpsToNext rest)
      exact .inr (by omega)
    · rcases ih hrest with hsame | hfewer
      · exact .inl (by rw [hsame])
      · refine .inr ?_
        show branches ([i] ++ _) < _
        rw [branches_append]
        omega

theorem tidy_of_round (h : Prune.round body = body) : Tidy body := by
  have hunreachable := sublist_unreachable true body
  have hlabels : (Prune.unusedLabels (Prune.unreachable true body)).Sublist
    (Prune.unreachable true body) := List.filter_sublist
  have hjumps := sublist_jumpsToNext (Prune.unusedLabels (Prune.unreachable true body))
  have hresults := Prune.sublist_unusedResults
    (Prune.jumpsToNext (Prune.unusedLabels (Prune.unreachable true body)))
  -- the four removals leave as much as there was, so each leaves everything
  have hlength : (Prune.unusedResults (Prune.jumpsToNext (Prune.unusedLabels
    (Prune.unreachable true body)))).length = body.length := congrArg List.length h
  have h₁ := hresults.length_le
  have h₂ := hjumps.length_le
  have h₃ := hlabels.length_le
  have hreached : Prune.unreachable true body = body := hunreachable.eq_of_length_le (by omega)
  rw [hreached] at hlabels hjumps h₁ h₂ h₃ hlength
  have hused : Prune.unusedLabels body = body := hlabels.eq_of_length_le (by omega)
  rw [hused] at hjumps h₁ h₂ hlength
  exact ⟨hreached, hused, leaps_of_jumpsToNext (hjumps.eq_of_length_le (by omega))⟩

theorem label_mem_of_unusedLabels (h : Prune.unusedLabels body = body) {l : Label}
    (hl : .label l ∈ body) : l ∈ body.filterMap Inst.target? := by
  have hused := List.filter_eq_self.mp h _ hl
  simpa only [Inst.label?, Prune.targets, Std.HashSet.contains_ofList, List.contains_iff_mem] using hused

theorem unusedLabels_eq_self (h : ∀ i ∈ body, ∀ l, i.label? = some l → l ∈ body.filterMap Inst.target?) :
    Prune.unusedLabels body = body := by
  refine List.filter_eq_self.mpr fun i hi => ?_
  cases hl : i.label? with
  | none => rfl
  | some l =>
    simp only [Prune.targets, Std.HashSet.contains_ofList, List.contains_iff_mem]
    exact h i hi l hl

/-! Folding without settling a branch leaves code tidy. -/

theorem unreachable_of_alike (h : List.Forall₂ Alike body body') {reached : Bool}
    (hbody : Prune.unreachable reached body = body) : Prune.unreachable reached body' = body' := by
  induction h generalizing reached with
  | nil => rfl
  | cons halike _ ih =>
    obtain ⟨hhere, hrest⟩ := unreachable_cons_eq_self_iff.mp hbody
    rw [unreachable_cons_eq_self_iff, halike.label, halike.ends]
    exact ⟨hhere, ih hrest⟩

theorem nextLabel?_of_alike (h : List.Forall₂ Alike body body') :
    Prune.nextLabel? body' = Prune.nextLabel? body := by
  induction h with
  | nil => rfl
  | @cons i j rest rest' halike _ ih =>
    unfold Prune.nextLabel? at ih ⊢
    rw [List.find?_cons, List.find?_cons, halike.comment]
    cases hcomment : i.isComment with
    | true => exact ih
    | false => exact halike.label

theorem leaps_of_alike (h : List.Forall₂ Alike body body') (hbody : Leaps body) : Leaps body' := by
  induction h with
  | nil => trivial
  | @cons i j rest rest' halike hrest ih =>
    refine ⟨?_, ih hbody.2⟩
    rintro l rfl
    rw [nextLabel?_of_alike hrest]
    refine hbody.1 l ?_
    have htarget := halike.target
    have hends := halike.ends
    cases i <;> cases htarget <;> first | rfl | cases hends

theorem targets_of_alike (h : List.Forall₂ Alike body body') :
    body'.filterMap Inst.target? = body.filterMap Inst.target? := by
  induction h with
  | nil => rfl
  | cons halike _ ih => rw [List.filterMap_cons, List.filterMap_cons, halike.target, ih]

theorem Tidy.alike (hbody : Tidy body) (h : List.Forall₂ Alike body body') : Tidy body' where
  reached := unreachable_of_alike h hbody.reached
  labels := by
    refine unusedLabels_eq_self fun j hj l hl => ?_
    obtain ⟨n, hn⟩ := List.mem_iff_getElem?.mp hj
    obtain ⟨i, hi, halike⟩ : ∃ i ∈ body, Alike i j := by
      have hlength := h.length_eq
      obtain ⟨hlt, rfl⟩ := List.getElem?_eq_some_iff.mp hn
      exact ⟨_, List.getElem_mem (hlength ▸ hlt), h.get (hlength ▸ hlt) hlt⟩
    rw [targets_of_alike h]
    have hlabel : .label l = i := by
      have hi := halike.label.symm.trans hl
      cases i <;> cases hi
      rfl
    exact label_mem_of_unusedLabels hbody.labels (hlabel ▸ hi)
  leaps := leaps_of_alike h hbody.leaps

/-! Leaving out results leaves code tidy. -/

theorem unreachable_filter {p : Inst → Bool} (hp : ∀ i, p i = false → i.dst?.isSome) {reached : Bool}
    (h : Prune.unreachable reached body = body) :
    Prune.unreachable reached (body.filter p) = body.filter p := by
  induction body generalizing reached with
  | nil => rfl
  | cons i rest ih =>
    obtain ⟨hhere, hrest⟩ := unreachable_cons_eq_self_iff.mp h
    rw [List.filter_cons]
    split
    · exact unreachable_cons_eq_self_iff.mpr ⟨hhere, ih hrest⟩
    · rename_i hi
      obtain ⟨t, hdst⟩ := Option.isSome_iff_exists.mp (hp i (by simpa using hi))
      have hlabel : i.label? = none := by cases i <;> first | rfl | cases hdst
      have hends : i.endsBlock = false := by cases i <;> first | rfl | cases hdst
      rw [hlabel, Option.isSome_none, Bool.or_false] at hhere
      rw [hends] at hrest
      rw [hhere]
      exact ih hrest

/-- What follows a jump, in code that is reached, is a label or the end. -/
theorem nextLabel?_filter {p : Inst → Bool} (hp : ∀ i, p i = false → i.dst?.isSome)
    (h : Prune.unreachable false rest = rest) :
    Prune.nextLabel? (rest.filter p) = Prune.nextLabel? rest := by
  cases rest with
  | nil => rfl
  | cons i rest =>
    have hlabel := (unreachable_cons_eq_self_iff.mp h).1
    cases i with
    | label l =>
      have hkept : p (.label l) = true := by
        by_contra hnot
        exact absurd (hp (.label l) (by simpa using hnot)) (by simp [Inst.dst?])
      rw [List.filter_cons_of_pos hkept]
      rfl
    | _ => cases hlabel

theorem leaps_filter {p : Inst → Bool} (hp : ∀ i, p i = false → i.dst?.isSome) {reached : Bool}
    (hreached : Prune.unreachable reached body = body) (h : Leaps body) : Leaps (body.filter p) := by
  induction body generalizing reached with
  | nil => trivial
  | cons i rest ih =>
    obtain ⟨-, hrest⟩ := unreachable_cons_eq_self_iff.mp hreached
    rw [List.filter_cons]
    split
    · refine ⟨?_, ih hrest h.2⟩
      rintro l rfl
      rw [nextLabel?_filter hp hrest]
      exact h.1 l rfl
    · exact ih hrest h.2

theorem targets_filter {p : Inst → Bool} (hp : ∀ i, p i = false → i.dst?.isSome) :
    (body.filter p).filterMap Inst.target? = body.filterMap Inst.target? := by
  induction body with
  | nil => rfl
  | cons i rest ih =>
    rw [List.filter_cons, List.filterMap_cons]
    split
    · rw [List.filterMap_cons, ih]
    · rename_i hi
      obtain ⟨t, hdst⟩ := Option.isSome_iff_exists.mp (hp i (by simpa using hi))
      have htarget : i.target? = none := by cases i <;> first | rfl | cases hdst
      rw [htarget, ih]

theorem Tidy.filter {p : Inst → Bool} (h : Tidy body) (hp : ∀ i, p i = false → i.dst?.isSome) :
    Tidy (body.filter p) where
  reached := unreachable_filter hp h.reached
  labels := by
    refine unusedLabels_eq_self fun i hi l hl => ?_
    rw [targets_filter hp]
    have hlabel : .label l = i := by
      cases i <;> cases hl
      rfl
    exact label_mem_of_unusedLabels h.labels (hlabel ▸ List.mem_of_mem_filter hi)
  leaps := leaps_filter hp h.reached h.leaps

theorem Tidy.unusedResults (h : Tidy body) : Tidy (Prune.unusedResults body) := by
  induction body using Prune.unusedResults.induct with
  | case1 b hlt ih =>
    rw [Prune.unusedResults_of_lt hlt]
    refine ih (h.filter fun i hi => ?_)
    cases hdst : i.dst? with
    | none => simp [hdst] at hi
    | some t => rfl
  | case2 b hle =>
    rw [Prune.unusedResults_of_not_lt hle]
    exact h

/-- From tidy code, pruning leaves out unused results only, or some branch. -/
theorem Tidy.rounds (h : Tidy body) : Prune.rounds body = Prune.unusedResults body ∨
    branches (Prune.rounds body) < branches body := by
  have hround {b : List Inst} (hb : Tidy b) : Prune.round b = Prune.unusedResults b ∨
      branches (Prune.rounds b) < branches b := by
    rw [Prune.round, hb.reached, hb.labels]
    rcases jumpsToNext_of_leaps hb.leaps with hsame | hfewer
    · exact .inl (by rw [hsame])
    · refine .inr (lt_of_le_of_lt (branches_le_of_sublist ?_) hfewer)
      refine (Prune.sublist_rounds_round b).trans ?_
      rw [Prune.round, hb.reached, hb.labels]
      exact Prune.sublist_unusedResults _
  by_cases hlt : (Prune.round body).length < body.length
  · rcases hround h with hsame | hfewer
    · rw [Prune.rounds_of_lt hlt, hsame]
      have hagain := Prune.unusedResults_of_not_lt
        (Nat.not_lt.mpr (congrArg List.length (Prune.unusedOnce_unusedResults body)).ge)
      rcases hround h.unusedResults with hsame' | hfewer'
      · exact .inl (Prune.rounds_of_round (hsame'.trans hagain))
      · exact .inr (lt_of_lt_of_le hfewer' (branches_le_of_sublist (Prune.sublist_unusedResults body)))
    · exact .inr hfewer
  · rcases hround h with hsame | hfewer
    · refine .inl ?_
      rw [Prune.rounds_of_not_lt hlt, ← hsame]
      exact ((Prune.sublist_round body).eq_of_length_le (Nat.le_of_not_lt hlt)).symm
    · exact .inr hfewer

end Tidying

/-! Leaving out results from folded code. -/

section Settling

variable {once once' known known' : Set Temp} {body : List Inst} {i : Inst} {t : Temp}

/-- Nothing is left to fold of an instruction, where `known` are constants. -/
structure Quiet (known : Set Temp) (i : Inst) : Prop where
  reads : ∀ t ∈ known, .temp t ∉ i.operands
  constant : ∀ t n, Fold.constant? i = some (t, n) → i = .copy t (.const n)
  branch : (Fold.settle i).2 = false

/-- Nothing is left to fold of code, where `known` are constants at its beginning, and those of `once` are
written once. -/
def Settled (once : Set Temp) : Set Temp → List Inst → Prop
  | _, [] => True
  | known, i :: rest =>
    Quiet known i ∧ Settled once (known ∪ {t ∈ once | ∃ n, i = .copy t (.const n)}) rest

/-- Temporaries that are not read do not matter. -/
theorem Settled.filter (p : Inst → Bool) (h : Settled once known body)
    (hknown : ∀ t ∈ readBy (body.filter p), t ∈ known' → t ∈ known)
    (honce : ∀ t ∈ readBy (body.filter p), t ∈ once' → t ∈ once) :
    Settled once' known' (body.filter p) := by
  induction body generalizing known known' with
  | nil => trivial
  | cons i rest ih =>
    obtain ⟨hi, hrest⟩ := h
    rw [List.filter_cons] at hknown honce ⊢
    split
    · rename_i hp
      rw [if_pos hp] at hknown honce
      have hmore : ∀ t ∈ readBy (rest.filter p), t ∈ readBy (i :: rest.filter p) :=
        fun t ⟨j, hj, ht⟩ => ⟨j, List.mem_cons_of_mem _ hj, ht⟩
      refine ⟨⟨fun t ht hread => ?_, hi.constant, hi.branch⟩, ih hrest (fun t hread ht => ?_)
        fun t hread => honce t (hmore t hread)⟩
      · exact hi.reads t (hknown t ⟨i, List.mem_cons_self .., hread⟩ ht) hread
      · rcases ht with ht | ⟨ht, hcopy⟩
        · exact .inl (hknown t (hmore t hread) ht)
        · exact .inr ⟨honce t (hmore t hread) ht, hcopy⟩
    · rename_i hp
      rw [if_neg hp] at hknown honce
      exact ih hrest (fun t hread ht => .inl (hknown t hread ht)) honce

theorem settle_of_constant {dst : Temp} {n : Int64} (h : Fold.constant? i = some (dst, n)) :
    (Fold.settle i).2 = false := by
  have hdst := dst?_of_constant? h
  cases i <;> first | rfl | cases hdst

variable {counts : Fold.Counts} {constants : Fold.Known}

theorem unchanged_inst_iff_quiet :
    (Fold.inst counts constants i).changed = false ↔ Quiet {t | constants.contains t} i := by
  have hreads : i.operands.any (Fold.resolves constants) = false ↔
      ∀ t ∈ {t | constants.contains t}, .temp t ∉ i.operands := by
    rw [List.any_eq_false]
    constructor
    · intro h t ht hread
      exact h _ hread ht
    · intro h o ho hresolves
      cases o with
      | temp t => exact h t hresolves ho
      | const | data => cases hresolves
  by_cases hread : i.operands.any (Fold.resolves constants) = false
  · have hsame := Fold.reads_nothing_iff.mp hread
    cases hconstant : Fold.constant? i with
    | some x =>
      obtain ⟨dst, n⟩ := x
      rw [Fold.inst_of_constant (by rwa [hsame]), hread, Bool.false_or, hsame, bne_eq_false_iff_eq]
      constructor
      · intro hcopy
        refine ⟨hreads.mp hread, fun t m h => ?_, settle_of_constant hconstant⟩
        cases hconstant.symm.trans h
        exact hcopy
      · exact fun h => h.constant dst n hconstant
    | none =>
      rw [Fold.inst_of_not_constant (by rwa [hsame]), hread, Bool.false_or, hsame]
      refine ⟨fun h => ⟨hreads.mp hread, fun t n h => ?_, h⟩, fun h => h.branch⟩
      cases hconstant.symm.trans h
  · have hchanged : (Fold.inst counts constants i).changed ≠ false := by
      unfold Fold.inst
      simp only
      split <;> simp [hread]
    exact iff_of_false hchanged fun h => hread (hreads.mpr h.reads)

/-- The constants that are met in code that stays as it is are those of its copies. -/
theorem contains_of_quiet (h : Quiet {t | constants.contains t} i) (t : Temp) :
    (Fold.inst counts constants i).known.contains t = true ↔
      constants.contains t = true ∨ counts.getD t 0 = 1 ∧ ∃ n, i = .copy t (.const n) := by
  have hread : i.operands.any (Fold.resolves constants) = false := by
    rw [List.any_eq_false]
    intro o ho hresolves
    cases o with
    | temp t => exact h.reads t hresolves ho
    | const | data => cases hresolves
  have hsame := Fold.reads_nothing_iff.mp hread
  cases hconstant : Fold.constant? i with
  | some x =>
    obtain ⟨dst, n⟩ := x
    obtain rfl := h.constant dst n hconstant
    rw [Fold.inst_of_constant (by rwa [hsame])]
    by_cases hcount : counts.getD dst 0 = 1
    · simp only [hcount, if_true, Std.HashMap.contains_insert, Bool.or_eq_true, beq_iff_eq,
        Inst.copy.injEq, Operand.const.injEq, exists_and_left]
      constructor
      · rintro (rfl | ht)
        · exact .inr ⟨hcount, rfl, n, rfl⟩
        · exact .inl ht
      · rintro (ht | ⟨-, rfl, -⟩)
        · exact .inr ht
        · exact .inl rfl
    · rw [if_neg hcount]
      refine ⟨.inl, ?_⟩
      rintro (ht | ⟨hcount', m, hcopy⟩)
      · exact ht
      · cases hcopy
        exact absurd hcount' hcount
  | none =>
    rw [Fold.inst_of_not_constant (by rwa [hsame])]
    refine ⟨.inl, ?_⟩
    rintro (ht | ⟨-, n, rfl⟩)
    · exact ht
    · cases hconstant

/-- Folding changes nothing exactly if there is nothing left to fold. -/
theorem unchanged_iff_settled (honce : ∀ t, t ∈ once ↔ counts.getD t 0 = 1) :
    (Fold.insts counts constants body).2 = false ↔ Settled once {t | constants.contains t} body := by
  induction body generalizing constants with
  | nil => exact iff_of_true rfl trivial
  | cons i rest ih =>
    show (_ || _) = false ↔ _ ∧ _
    rw [Bool.or_eq_false_iff, ih, unchanged_inst_iff_quiet]
    refine and_congr_right fun hquiet => ?_
    have hknown : {t | (Fold.inst counts constants i).known.contains t} =
        {t | constants.contains t} ∪ {t ∈ once | ∃ n, i = .copy t (.const n)} := by
      ext t
      exact (contains_of_quiet hquiet t).trans
        (or_congr_right (and_congr_left' (honce t).symm))
    rw [hknown]

theorem unchanged_fold_iff (b : List Inst) :
    (Fold.body b).2 = false ↔ Settled {t | b.countP (·.dst? == some t) = 1} ∅ b := by
  have hnone : {t : Temp | (∅ : Fold.Known).contains t} = ∅ := by
    ext t
    simp
  rw [← hnone]
  refine unchanged_iff_settled fun t => ?_
  rw [Fold.getD_countWrites]
  rfl

/-- Leaving out unused results gives folding nothing to do. -/
theorem unchanged_fold_unusedOnce (h : (Fold.body body).2 = false) :
    (Fold.body (Prune.unusedOnce body)).2 = false := by
  rw [unchanged_fold_iff] at h ⊢
  refine h.filter _ (fun _ _ ht => ht) fun t ⟨i, hi, hread⟩ ht => ?_
  have hkept : t ∈ readBy body := ⟨i, List.mem_of_mem_filter hi, hread⟩
  have hcount : (Prune.unusedOnce body).countP (·.dst? == some t) =
      body.countP (·.dst? == some t) := by
    rw [Prune.unusedOnce, List.countP_filter]
    refine List.countP_congr fun j _ => ?_
    rw [Bool.and_eq_true]
    refine and_iff_left_of_imp fun hdst => ?_
    rw [eq_of_beq hdst, Bool.or_eq_true]
    exact .inr (mem_reads.mpr hkept)
  exact hcount.symm.trans ht

theorem unchanged_fold_unusedResults (h : (Fold.body body).2 = false) :
    (Fold.body (Prune.unusedResults body)).2 = false := by
  induction body using Prune.unusedResults.induct with
  | case1 b hlt ih =>
    rw [Prune.unusedResults_of_lt hlt]
    exact ih (unchanged_fold_unusedOnce h)
  | case2 b hle =>
    rwa [Prune.unusedResults_of_not_lt hle]

end Settling

namespace Pass

/-- What one round of folding and pruning makes of a function. -/
def turn (f : Function) : Function := (round [.fold, .prune] f).1

variable {f : Function} {n : Nat}

theorem body_turn (f : Function) : (turn f).body = Prune.rounds (Fold.body f.body).1 := rfl

theorem changed_round (f : Function) : (round [.fold, .prune] f).2 =
    ((Pass.fold.run f).2 || ((Pass.prune.run (Pass.fold.run f).1).2 || false)) := rfl

/-- A round reports no change exactly if neither pass has anything left to do. -/
theorem unchanged_round_iff : (round [.fold, .prune] f).2 = false ↔ Stable f := by
  rw [changed_round, Bool.or_false, Bool.or_eq_false_iff]
  constructor
  · rintro ⟨hfold, hprune⟩ p
    rw [(unchanged_run_iff .fold f).mp hfold] at hprune
    cases p with
    | fold => exact hfold
    | prune => exact hprune
  · intro h
    refine ⟨h .fold, ?_⟩
    rw [(unchanged_run_iff .fold f).mp (h .fold)]
    exact h .prune

/-- A round changes a function exactly if it is not stable. -/
theorem turn_eq_self_iff : turn f = f ↔ Stable f := by
  constructor
  · intro h
    have hbody : Prune.rounds (Fold.body f.body).1 = f.body :=
      (body_turn f).symm.trans (congrArg Function.body h)
    have hlength := (Fold.length_insts_le (Fold.countWrites f.body) {} f.body)
    have hsame := (Prune.sublist_rounds (Fold.body f.body).1).eq_of_length_le
      (by rw [hbody]; exact hlength)
    have hfold : (Fold.body f.body).1 = f.body := hsame.symm.trans hbody
    intro p
    cases p with
    | fold => exact (Fold.unchanged_insts_iff _ _ _).mpr hfold
    | prune =>
      rw [hfold] at hbody
      exact (Prune.unchanged_body_iff _).mpr hbody
  · intro h
    have hfold := (unchanged_run_iff .fold f).mp (h .fold)
    show (Pass.prune.run (Pass.fold.run f).1).1 = f
    rw [hfold]
    exact (unchanged_run_iff .prune f).mp (h .prune)

theorem Stable.turn (h : Stable f) : Stable (turn f) := by
  rwa [turn_eq_self_iff.mpr h]

/-- A round on pruned code removes a branch, or else nothing is left to do after it. -/
theorem fewer_or_stable_turn (h : Prune.round f.body = f.body) :
    (Pass.turn f).branches < f.branches ∨ Stable (Pass.turn f) := by
  have hfewer := branches_le_of_sublist (Prune.sublist_rounds (Fold.body f.body).1)
  rcases alike_or_fewer (Fold.countWrites f.body) {} f.body with halike | hfolded
  · rcases ((tidy_of_round h).alike halike).rounds with hsame | hpruned
    · refine .inr fun p => ?_
      cases p with
      | fold =>
        show (Fold.body (Prune.rounds (Fold.body f.body).1)).2 = false
        rw [show Prune.rounds (Fold.body f.body).1 = _ from hsame]
        exact unchanged_fold_unusedResults (Fold.body_again f.body)
      | prune => exact Prune.body_again _
    · exact .inl (lt_of_lt_of_le hpruned (branches_insts_le _ _ _))
  · exact .inl (lt_of_le_of_lt hfewer hfolded)

theorem branches_turn_le (f : Function) : (Pass.turn f).branches ≤ f.branches :=
  (branches_le_of_sublist (Prune.sublist_rounds _)).trans (branches_insts_le _ _ _)

theorem Stable.iterate (h : Stable f) (n : Nat) : Stable (Pass.turn^[n] f) := by
  induction n with
  | zero => exact h
  | succ n ih =>
    rw [Function.iterate_succ_apply']
    exact ih.turn

/-- After the first round, each round removes one branch at least until nothing is left to do. -/
theorem stable_or_fewer (f : Function) (n : Nat) :
    Stable (Pass.turn^[n + 2] f) ∨ (Pass.turn^[n + 2] f).branches + (n + 1) ≤ f.branches := by
  induction n with
  | zero =>
    have hpruned : Prune.round (Pass.turn f).body = (Pass.turn f).body := Prune.round_rounds _
    rcases fewer_or_stable_turn hpruned with hfewer | hstable
    · refine .inr ?_
      have hfirst := branches_turn_le f
      show (Pass.turn (Pass.turn f)).branches + 1 ≤ f.branches
      omega
    · exact .inl hstable
  | succ n ih =>
    rw [Function.iterate_succ_apply']
    rcases ih with hstable | hbranches
    · exact .inl hstable.turn
    · have hpruned : Prune.round (Pass.turn^[n + 2] f).body = (Pass.turn^[n + 2] f).body := by
        rw [Function.iterate_succ_apply']
        exact Prune.round_rounds _
      rcases fewer_or_stable_turn hpruned with hfewer | hstable
      · exact .inr (by omega)
      · exact .inl hstable

/-- Two rounds more than there are branches are enough. -/
theorem stable_iterate_turn (h : f.branches + 2 ≤ n) : Stable (Pass.turn^[n] f) := by
  obtain ⟨k, rfl⟩ := Nat.exists_eq_add_of_le h
  have hstable : Stable (Pass.turn^[f.branches + 2] f) := by
    rcases stable_or_fewer f f.branches with hstable | hfewer
    · exact hstable
    · omega
  rw [Nat.add_comm, Function.iterate_add_apply]
  exact hstable.iterate k

/-- No number of rounds leads back to a function that one round changes. -/
theorem stable_of_iterate_eq (hn : 0 < n) (h : Pass.turn^[n] f = f) : Stable f := by
  have hsame : Pass.turn^[n * (f.branches + 2)] f = f := by
    rw [Function.iterate_mul]
    exact Function.iterate_fixed h _
  have hstable := stable_iterate_turn (f := f) (Nat.le_mul_of_pos_left (f.branches + 2) hn)
  rwa [hsame] at hstable

/-- The optimizer runs so many rounds, as the rounds after the last change do nothing. -/
theorem rounds_eq_iterate (limit : Nat) (f : Function) :
    rounds [.fold, .prune] limit f = Pass.turn^[limit] f := by
  induction limit generalizing f with
  | zero => rfl
  | succ limit ih =>
    show (if (round [.fold, .prune] f).2 then rounds _ limit (Pass.turn f) else Pass.turn f) = _
    rw [Function.iterate_succ_apply]
    cases hchanged : (round [.fold, .prune] f).2 with
    | true => exact ih _
    | false =>
      have hsame := turn_eq_self_iff.mpr (unchanged_round_iff.mp hchanged)
      rw [hsame, Function.iterate_fixed hsame]
      rfl

/-- Every pass reports a change exactly if it makes one, finds nothing to do right after, and adds no
work; and for every function there is a number of rounds, its branches and two at most, after which
neither pass has anything left to do. -/
theorem runs_settle (f : Function) :
    (∀ p : Pass, ((p.run f).2 = true ↔ (p.run f).1.body ≠ f.body) ∧ (p.run (p.run f).1).2 = false ∧
        (p.run f).1.work ≤ f.work) ∧
      ∃ n ≤ f.branches + 2, ∀ p : Pass,
        (p.run ((fun g => (round [.fold, .prune] g).1)^[n] f)).2 = false := by
  refine ⟨fun p => ⟨?_, run_again p f, work_run_le p f⟩, f.branches + 2, Nat.le_refl _,
    stable_iterate_turn (Nat.le_refl _)⟩
  rw [← Bool.not_eq_false, not_iff_not, unchanged_run_iff]
  refine ⟨fun h => congrArg Function.body h, fun h => ?_⟩
  rw [run_body] at h ⊢
  exact congrArg (fun b => { f with body := b }) h

end Pass
end MiniC.Code
