import Mathlib.Data.List.Induction
import MiniC.Proofs.Code.Rewrites
/-!
What the passes know and what they leave out. Folding knows constants: a known temporary is written by
one instruction only, which gives it its constant, and a constant that is once known stays so. Pruning only
leaves out instructions: what is left of a body depends on what is still to come of it, so the two are
compared suffix by suffix. Main statement: each way of pruning code is of this kind, and finds the labels
again that jumps name.
-/
namespace MiniC.Code.Fold

/-- The constants that are known after some code. -/
def knownAfter (counts : Counts) : Known → List Inst → Known
  | known, [] => known
  | known, i :: rest => knownAfter counts (inst counts known i).known rest

variable {counts : Counts} {known : Known} {body before rest : List Inst} {i : Inst} {t : Temp}
  {n : Int64}

theorem knownAfter_append (counts : Counts) (known : Known) (before rest : List Inst) :
    knownAfter counts known (before ++ rest) =
      knownAfter counts (knownAfter counts known before) rest := by
  induction before generalizing known with
  | nil => rfl
  | cons i before ih => exact ih _

theorem insts_append (counts : Counts) (known : Known) (before rest : List Inst) :
    (insts counts known (before ++ rest)).1 =
      (insts counts known before).1 ++ (insts counts (knownAfter counts known before) rest).1 := by
  induction before generalizing known with
  | nil => rfl
  | cons i before ih => exact (congrArg _ (ih _)).trans (List.append_assoc ..).symm

theorem getD_countWrites (body : List Inst) (t : Temp) :
    (countWrites body).getD t 0 = body.countP (·.dst? == some t) := by
  induction body using List.reverseRecOn with
  | nil => exact Std.HashMap.getD_empty
  | append_singleton body i ih =>
    rw [List.countP_append, ← ih, List.countP_singleton]
    simp only [countWrites, List.foldl_append, List.foldl_cons, List.foldl_nil]
    cases hdst : i.dst? with
    | none => rfl
    | some u =>
      simp only [Std.HashMap.getD_insert, beq_iff_eq, Option.some.injEq]
      by_cases hu : u = t
      · subst hu
        simp only [if_true]
      · simp only [hu, if_false, Nat.add_zero]

/-- An instruction adds a constant only for what it writes, as the only one to do so. -/
theorem known_inst (counts : Counts) (known : Known) (i : Inst) (t : Temp) :
    (inst counts known i).known[t]? = known[t]? ∨
      i.dst? = some t ∧ counts.getD t 0 = 1 := by
  unfold inst
  simp only
  split
  · rename_i dst n hconstant
    have hdst : i.dst? = some dst := by simpa using dst?_of_constant? hconstant
    by_cases hcount : counts.getD dst 0 = 1
    · by_cases ht : dst = t
      · exact .inr ⟨ht ▸ hdst, ht ▸ hcount⟩
      · rw [if_pos hcount, Std.HashMap.getElem?_insert, if_neg (by simpa using ht)]
        exact .inl rfl
    · rw [if_neg hcount]
      exact .inl rfl
  · exact .inl rfl

theorem knownAfter_of_unwritten (h : ∀ j ∈ rest, j.dst? ≠ some t) :
    (knownAfter counts known rest)[t]? = known[t]? := by
  induction rest generalizing known with
  | nil => rfl
  | cons i rest ih =>
    refine (ih fun j hj => h j (List.mem_cons_of_mem _ hj)).trans ?_
    exact (known_inst counts known i t).resolve_right fun hi => h i (List.mem_cons_self ..) hi.1

/-- What is known was written, by one instruction of all. -/
theorem once_of_known (h : (knownAfter counts known rest)[t]? = some n)
    (hknown : known[t]? = none) : counts.getD t 0 = 1 ∧ ∃ j ∈ rest, j.dst? = some t := by
  induction rest generalizing known with
  | nil => exact absurd (hknown.symm.trans h) nofun
  | cons i rest ih =>
    rcases known_inst counts known i t with hsame | ⟨hdst, hcount⟩
    · obtain ⟨hcount, j, hj, hdst⟩ := ih h (hsame.trans hknown)
      exact ⟨hcount, j, List.mem_cons_of_mem _ hj, hdst⟩
    · exact ⟨hcount, i, List.mem_cons_self .., hdst⟩

theorem unwritten_of_once (hcount : (before ++ i :: rest).countP (·.dst? == some t) = 1)
    (hdst : i.dst? = some t) :
    (∀ j ∈ before, j.dst? ≠ some t) ∧ ∀ j ∈ rest, j.dst? ≠ some t := by
  rw [List.countP_append, List.countP_cons, if_pos (by simpa using hdst)] at hcount
  have hbefore : before.countP (·.dst? == some t) = 0 := by omega
  have hrest : rest.countP (·.dst? == some t) = 0 := by omega
  exact ⟨fun j hj => by simpa using List.countP_eq_zero.mp hbefore j hj,
    fun j hj => by simpa using List.countP_eq_zero.mp hrest j hj⟩

/-- The constants that are known in the end. -/
def constants (body : List Inst) : Known := knownAfter (countWrites body) {} body

/-- What writes a constant that is known in the end is folded to it. -/
theorem constant_of_constants (hbody : body = before ++ i :: rest)
    (h : (constants body)[t]? = some n) (hdst : i.dst? = some t) :
    constant? (i.mapOperands (resolve (knownAfter (countWrites body) {} before))) = some (t, n) := by
  obtain ⟨hcount, -⟩ := once_of_known h Std.HashMap.getElem?_empty
  have honce := (getD_countWrites body t).symm.trans hcount
  rw [hbody] at honce
  obtain ⟨hbefore, hrest⟩ := unwritten_of_once honce hdst
  unfold constants at h
  generalize countWrites body = counts at h hcount ⊢
  rw [hbody, knownAfter_append, knownAfter, knownAfter_of_unwritten hrest] at h
  have hnone : (knownAfter counts {} before)[t]? = none :=
    (knownAfter_of_unwritten hbefore).trans Std.HashMap.getElem?_empty
  unfold inst at h
  simp only at h
  split at h
  · rename_i dst m hconstant
    have hdst' : i.dst? = some dst := by simpa using dst?_of_constant? hconstant
    obtain rfl := Option.some.inj (hdst'.symm.trans hdst)
    rw [if_pos hcount, Std.HashMap.getElem?_insert_self] at h
    rw [hconstant, Option.some.inj h]
  · exact absurd (hnone.symm.trans h) nofun

theorem constants_of_known (hbody : body = before ++ rest)
    (h : (knownAfter (countWrites body) {} before)[t]? = some n) :
    (constants body)[t]? = some n := by
  obtain ⟨hcount, j, hj, hdst⟩ := once_of_known h Std.HashMap.getElem?_empty
  obtain ⟨first, last, rfl⟩ := List.append_of_mem hj
  have honce := (getD_countWrites body t).symm.trans hcount
  rw [hbody, List.append_assoc, List.cons_append] at honce
  obtain ⟨-, hrest⟩ := unwritten_of_once honce hdst
  rw [constants]
  nth_rewrite 2 [hbody]
  rw [knownAfter_append, knownAfter_of_unwritten fun j hj => hrest j (List.mem_append_right _ hj)]
  exact h

end MiniC.Code.Fold

namespace MiniC.Code

/-- A body from which instructions are left out. `R` relates what is still to come of both where
control can get, and `skips` tells which instructions are left out there. -/
structure Thins (skips : Inst → List Inst → Prop) (R : List Inst → List Inst → Prop)
    (body body' : List Inst) : Prop where
  entry : R body body'
  nil : ∀ {rest'}, R [] rest' → rest' = []
  cons : ∀ {i rest rest'}, R (i :: rest) rest' →
    (skips i rest ∧ R rest rest') ∨
      ∃ rest'', rest' = i :: rest'' ∧ (i.endsBlock = false → R rest rest'')
  label : ∀ {before l rest}, body = before ++ .label l :: rest →
    (∃ i ∈ body, i.target? = some l) →
      ∃ before' rest', body' = before' ++ .label l :: rest' ∧ R (.label l :: rest) (.label l :: rest')

section Thinning

variable {body : List Inst}

theorem Thins.mono {skips skips' : Inst → List Inst → Prop} {R : List Inst → List Inst → Prop}
    {body' : List Inst} (h : Thins skips R body body')
    (hskips : ∀ i rest, skips i rest → skips' i rest) : Thins skips' R body body' where
  entry := h.entry
  nil := h.nil
  cons hR := (h.cons hR).imp_left fun hskip => ⟨hskips _ _ hskip.1, hskip.2⟩
  label := h.label

theorem thins_filter (p : Inst → Bool)
    (hp : ∀ i ∈ body, ∀ l, i.target? = some l → p (.label l) = true) :
    Thins (fun i _ => ¬ p i) (fun rest rest' => rest' = rest.filter p) body (body.filter p) where
  entry := rfl
  nil h := h
  cons {i rest rest'} h := by
    rw [List.filter_cons] at h
    split at h
    · exact .inr ⟨_, h, fun _ => rfl⟩
    · exact .inl ⟨‹_›, h⟩
  label {before l rest} hbody := by
    rintro ⟨i, hi, hl⟩
    have hkept : (Inst.label l :: rest).filter p = .label l :: rest.filter p :=
      List.filter_cons_of_pos (hp i hi l hl)
    refine ⟨before.filter p, rest.filter p, ?_, hkept.symm⟩
    rw [hbody, List.filter_append, hkept]

/-- Labels are left out. -/
theorem thins_unusedLabels (body : List Inst) :
    ∃ R, Thins (fun i _ => ∃ l, i = .label l) R body (Prune.unusedLabels body) := by
  refine ⟨_, (thins_filter _ fun i hi l hl => ?_).mono fun i rest hi => ?_⟩
  · simp only [Inst.label?, Prune.targets, Std.HashSet.contains_ofList, List.contains_iff_mem]
    exact List.mem_filterMap.mpr ⟨i, hi, hl⟩
  · cases i with
    | label l => exact ⟨l, rfl⟩
    | _ => exact absurd rfl hi

/-- Pure instructions are left out whose result is never read. -/
theorem thins_unusedOnce (body : List Inst) :
    ∃ R, Thins (fun i _ => i.isPure ∧ i ∉ Prune.unusedOnce body ∧
      ∃ t, i.dst? = some t ∧ t ∉ readBy body) R body (Prune.unusedOnce body) := by
  refine ⟨_, (thins_filter _ fun i hi l hl => rfl).mono fun i rest hi => ?_⟩
  have hnot : i ∉ Prune.unusedOnce body := fun hmem => hi (List.mem_filter.mp hmem).2
  cases hdst : i.dst? with
  | none => simp [hdst] at hi
  | some t =>
    simp only [hdst, Bool.or_eq_true, not_or, Bool.not_eq_true', Bool.not_eq_false] at hi
    exact ⟨hi.1, hnot, t, rfl, fun ht => hi.2 (mem_reads.mpr ht)⟩

/-- Jumps are left out that come right before their label. -/
theorem thins_jumpsToNext (body : List Inst) :
    ∃ R, Thins (fun i rest => ∃ l, i.target? = some l ∧ Prune.nextLabel? rest = some l) R body
      (Prune.jumpsToNext body) := by
  have hsuffix (before : List Inst) (l : Label) (rest : List Inst) : ∃ before',
      Prune.jumpsToNext (before ++ .label l :: rest) =
        before' ++ .label l :: Prune.jumpsToNext rest := by
    induction before with
    | nil => exact ⟨[], rfl⟩
    | cons i before ih =>
      obtain ⟨before', hbefore⟩ := ih
      rw [List.cons_append, Prune.jumpsToNext]
      split
      · exact ⟨before', hbefore⟩
      · exact ⟨i :: before', congrArg _ hbefore⟩
  refine ⟨fun rest rest' => rest' = Prune.jumpsToNext rest, rfl, fun h => h, fun {i rest rest'} h => ?_,
    fun {before l rest} hbody _ => ?_⟩
  · rw [Prune.jumpsToNext] at h
    split at h
    · rename_i hnext
      rw [Bool.and_eq_true, beq_iff_eq] at hnext
      obtain ⟨l, hl⟩ := Option.isSome_iff_exists.mp hnext.1
      exact .inl ⟨⟨l, hl, hnext.2.symm.trans hl⟩, h⟩
    · exact .inr ⟨_, h, fun _ => rfl⟩
  · obtain ⟨before', hbefore⟩ := hsuffix before l rest
    exact ⟨before', _, hbody ▸ hbefore, rfl⟩

/-- What control does not reach is left out, and nothing else. -/
theorem thins_unreachable (body : List Inst) :
    ∃ R, Thins (fun _ _ => False) R body (Prune.unreachable true body) := by
  have hsuffix (reached : Bool) (before : List Inst) (l : Label) (rest : List Inst) : ∃ before',
      Prune.unreachable reached (before ++ .label l :: rest) =
        before' ++ .label l :: Prune.unreachable true rest := by
    induction before generalizing reached with
    | nil => exact ⟨[], by simp [Prune.unreachable, Inst.label?, Inst.endsBlock]⟩
    | cons i before ih =>
      rw [List.cons_append, Prune.unreachable]
      obtain ⟨before', hbefore⟩ := ih ((reached || i.label?.isSome) && !i.endsBlock)
      rw [hbefore]
      split
      · exact ⟨i :: before', rfl⟩
      · exact ⟨before', rfl⟩
  refine ⟨fun rest rest' => rest' = Prune.unreachable true rest, rfl, fun h => h,
    fun {i rest rest'} h => .inr ⟨_, h, fun hends => by simp [hends]⟩,
    fun {before l rest} hbody _ => ?_⟩
  obtain ⟨before', hbefore⟩ := hsuffix true before l rest
  exact ⟨before', _, hbody ▸ hbefore, by simp [Prune.unreachable, Inst.endsBlock]⟩

end Thinning
end MiniC.Code
