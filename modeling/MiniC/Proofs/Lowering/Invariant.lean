import Mathlib.Data.List.Basic
import Mathlib.Data.Set.BooleanAlgebra
import Std.Data.String.ToNat
import MiniC.Proofs.Code.Flow
import MiniC.Proofs.Lowering.Growth
import MiniC.Proofs.Syntax.Scoped
/-!
What holds of the code of a function at every moment of writing it: labels differ, jumps go to
labels that stand in the code or are still owed, and everything that is read is available. Main
statement: each of the primitive actions keeps this invariant, with a set of what is available that
only loses nothing.
-/
namespace MiniC.Lowering

open Code

/-! The names of labels tell them apart. -/

def labelName (kind : String) (n : Nat) : Label := s!".L{kind}_{n}"

/-- A label that was made before the count reached `n`. -/
def Old (n : Nat) (l : Label) : Prop := ∃ kind k, l = labelName kind k ∧ k < n

theorem underscore_not_mem_repr (n : Nat) : '_' ∉ (Nat.repr n).toList := by
  intro h
  rw [Nat.toList_repr] at h
  have hdigit := Nat.isDigit_of_mem_toDigits (by omega) (by omega) h
  exact absurd hdigit (by decide)

theorem suffix_eq_of_append_eq {a b d e : List Char} {c : Char} (hd : c ∉ d) (he : c ∉ e)
    (h : a ++ c :: d = b ++ c :: e) : d = e := by
  have hrev := congrArg List.reverse h
  simp only [List.reverse_append, List.reverse_cons, List.append_assoc, List.singleton_append]
    at hrev
  have htake := congrArg (List.takeWhile (· ≠ c)) hrev
  have hall {d : List Char} (hd : c ∉ d) (rest : List Char) :
      (d.reverse ++ c :: rest).takeWhile (· ≠ c) = d.reverse := by
    rw [List.takeWhile_append_of_pos]
    · simp
    · intro x hx
      have hne : x ≠ c := fun hxc => hd (hxc ▸ List.mem_reverse.mp hx)
      simpa using hne
  rw [hall hd, hall he] at htake
  exact List.reverse_injective htake

theorem labelName_inj {k k' : String} {n n' : Nat} (h : labelName k n = labelName k' n') :
    n = n' := by
  have hchars := congrArg String.toList h
  have hlist (k : String) (n : Nat) :
      (labelName k n).toList = ('.' :: 'L' :: k.toList) ++ '_' :: (Nat.repr n).toList := by
    simp [labelName, String.toList_append, toString]
  rw [hlist, hlist] at hchars
  have hrepr := suffix_eq_of_append_eq (underscore_not_mem_repr n) (underscore_not_mem_repr n') hchars
  exact Nat.repr_injective (String.toList_inj.mp hrepr)

theorem Old.mono {n m : Nat} {l : Label} (h : Old n l) (hnm : n ≤ m) : Old m l := by
  obtain ⟨kind, k, rfl, hk⟩ := h
  exact ⟨kind, k, rfl, Nat.lt_of_lt_of_le hk hnm⟩

theorem old_labelName (kind : String) (n : Nat) : Old (n + 1) (labelName kind n) :=
  ⟨kind, n, rfl, Nat.lt_succ_self n⟩

theorem not_old_labelName (kind : String) (n : Nat) : ¬ Old n (labelName kind n) := by
  rintro ⟨kind', k, h, hk⟩
  have := labelName_inj h
  omega

theorem Old.ne {n : Nat} {l : Label} (h : Old n l) (kind : String) : l ≠ labelName kind n := by
  rintro rfl
  exact not_old_labelName kind n h

theorem freshLabel_eq_ok {kind : String} {s s' : State} {l : Label} :
    freshLabel kind s = .ok (l, s') ↔
      l = labelName kind s.labels ∧ s' = { s with labels := s.labels + 1 } := by
  simp only [freshLabel, Except.ok.injEq, Prod.mk.injEq, labelName]
  exact ⟨fun h => ⟨h.1.symm, h.2.symm⟩, fun h => ⟨h.1.symm, h.2.symm⟩⟩

/-! The invariant. -/

/-- `D` are the labels that are owed, `A` what is available at the end. -/
structure Inv (N : Names) (D : Set Label) (S : Summary) (A : Set Temp) (s : State) : Prop where
  labels : (labelsOf s.code.toList).Nodup
  old : ∀ l, l ∈ labelsOf s.code.toList ∨ l ∈ D → Old s.labels l
  owed : ∀ l ∈ D, l ∉ labelsOf s.code.toList
  targets : ∀ i ∈ s.code.toList, ∀ l, i.target? = some l → l ∈ labelsOf s.code.toList ∨ l ∈ D
  flows : Flows S ∅ s.code.toList
  available : afterAll S ∅ s.code.toList = A
  fine : ∀ i ∈ s.code.toList, Fine N s.temps (s.data.toList.map (·.label)) i

/-- Nothing is lost, and old labels keep their summary. -/
structure Later (S : Summary) (A : Set Temp) (s : State) (S' : Summary) (A' : Set Temp)
    (s' : State) : Prop where
  summary : ∀ l, Old s.labels l → S' l = S l
  available : A ⊆ A'
  temps : s.temps ≤ s'.temps
  labels : s.labels ≤ s'.labels
  data : s.data.toList <+: s'.data.toList

/-- An operand that may be read. -/
def Usable (A : Set Temp) (s : State) : Operand → Prop
  | .temp t => t ∈ A ∧ t < s.temps
  | .const _ => True
  | .data l => l ∈ s.data.toList.map (·.label)

section Invariant

variable {N : Names} {D : Set Label} {S S' S'' : Summary} {A A' A'' : Set Temp} {s s' s'' : State}
  {i : Inst} {l : Label} {o : Operand}

theorem Later.refl (S : Summary) (A : Set Temp) (s : State) : Later S A s S A s :=
  ⟨fun _ _ => rfl, subset_rfl, Nat.le_refl _, Nat.le_refl _, List.prefix_rfl⟩

theorem Later.trans (h : Later S A s S' A' s') (k : Later S' A' s' S'' A'' s'') :
    Later S A s S'' A'' s'' where
  summary l hl := (k.summary l (hl.mono h.labels)).trans (h.summary l hl)
  available := h.available.trans k.available
  temps := Nat.le_trans h.temps k.temps
  labels := Nat.le_trans h.labels k.labels
  data := h.data.trans k.data

theorem Usable.later (h : Usable A s o) (k : Later S A s S' A' s') : Usable A' s' o := by
  cases o with
  | temp t => exact ⟨k.available h.1, Nat.lt_of_lt_of_le h.2 k.temps⟩
  | const n => trivial
  | data l => exact ((k.data.map _).subset h)

theorem labelsOf_append (a b : List Inst) : labelsOf (a ++ b) = labelsOf a ++ labelsOf b :=
  List.filterMap_append

theorem labelsOf_singleton (i : Inst) : labelsOf [i] = i.label?.toList := by
  cases h : i.label? <;> simp [labelsOf, h]

/-- Emitting an instruction that is in order. A label that is emitted is owed no longer. -/
theorem Inv.emit (h : Inv N D S A s) (hallows : Allows S A i)
    (hlabel : ∀ l, i.label? = some l → l ∈ D)
    (htarget : ∀ l, i.target? = some l → l ∈ labelsOf s.code.toList ∨ l ∈ D)
    (hfine : Fine N s.temps (s.data.toList.map (·.label)) i) :
    Inv N (D \ {l | i.label? = some l}) S (after S A i) { s with code := s.code.push i } where
  labels := by
    rw [Array.toList_push, labelsOf_append, labelsOf_singleton]
    refine List.nodup_append.mpr ⟨h.labels, ?_, ?_⟩
    · cases i.label? <;> simp
    · rintro a ha b hb rfl
      exact h.owed a (hlabel a (Option.mem_toList.mp hb)) ha
  old l hl := by
    rw [Array.toList_push, labelsOf_append, labelsOf_singleton] at hl
    rcases hl with hl | hl
    · rcases List.mem_append.mp hl with hl | hl
      · exact h.old l (.inl hl)
      · exact h.old l (.inr (hlabel l (Option.mem_toList.mp hl)))
    · exact h.old l (.inr hl.1)
  owed l hl hmem := by
    rw [Array.toList_push, labelsOf_append, labelsOf_singleton] at hmem
    rcases List.mem_append.mp hmem with hmem | hmem
    · exact h.owed l hl.1 hmem
    · exact hl.2 (Option.mem_toList.mp hmem)
  targets j hj l hl := by
    rw [Array.toList_push, labelsOf_append, labelsOf_singleton]
    have hbefore : l ∈ labelsOf s.code.toList ∨ l ∈ D := by
      rw [Array.toList_push] at hj
      rcases List.mem_append.mp hj with hj | hj
      · exact h.targets j hj l hl
      · rw [List.mem_singleton.mp hj] at hl
        exact htarget l hl
    rcases hbefore with hmem | hmem
    · exact .inl (List.mem_append_left _ hmem)
    · by_cases hi : i.label? = some l
      · exact .inl (List.mem_append_right _ (Option.mem_toList.mpr hi))
      · exact .inr ⟨hmem, hi⟩
  flows := by
    rw [Array.toList_push, flows_append, h.available]
    exact ⟨h.flows, hallows, trivial⟩
  available := by
    rw [Array.toList_push, afterAll_append, h.available]
    rfl
  fine j hj := by
    rw [Array.toList_push] at hj
    rcases List.mem_append.mp hj with hj | hj
    · exact h.fine j hj
    · rw [List.mem_singleton.mp hj]
      exact hfine

/-- An instruction that is neither a label nor a jump nor a return. -/
theorem Inv.straight (h : Inv N D S A s) (hlabel : i.label? = none) (htarget : i.target? = none)
    (hends : i.endsBlock = false) (hreads : ∀ o ∈ i.operands, Usable A s o)
    (hdst : ∀ t, i.dst? = some t → t < s.temps) (hnames : permits N i) :
    Inv N D S ({t | i.dst? = some t} ∪ A) { s with code := s.code.push i } := by
  have hallows : Allows S A i :=
    ⟨fun t ht => (hreads _ ht).1, by simp [htarget], by simp [hlabel]⟩
  have hinv := h.emit hallows (by simp [hlabel]) (by simp [htarget])
    ⟨hdst, fun t ht => (hreads _ ht).2, fun l hl => hreads _ hl, hnames⟩
  have hD : D \ {l | i.label? = some l} = D := by simp [hlabel]
  have hA : after S A i = {t | i.dst? = some t} ∪ A := by
    cases i with
    | label l => simp [Inst.label?] at hlabel
    | jump l => simp [Inst.endsBlock] at hends
    | ret v => simp [Inst.endsBlock] at hends
    | _ => rfl
  rwa [hD, hA] at hinv

/-- A jump or a branch to a label, with all that the label asks for. -/
theorem Inv.jump (h : Inv N D S A s) (htarget : i.target? = some l)
    (hl : l ∈ labelsOf s.code.toList ∨ l ∈ D) (hS : S l ⊆ A)
    (hreads : ∀ o ∈ i.operands, Usable A s o) :
    Inv N D S (after S A i) { s with code := s.code.push i } := by
  have hlabel : i.label? = none := by cases i <;> cases htarget <;> rfl
  have hnames : permits N i := by cases i <;> cases htarget <;> trivial
  have hdst : i.dst? = none := by cases i <;> cases htarget <;> rfl
  have hgoes (l' : Label) (h' : i.target? = some l') : l' = l :=
    Option.some.inj (h'.symm.trans htarget)
  have hallows : Allows S A i :=
    ⟨fun t ht => (hreads _ ht).1, fun l' h' => hgoes l' h' ▸ hS, by simp [hlabel]⟩
  have hinv := h.emit hallows (by simp [hlabel]) (fun l' h' => hgoes l' h' ▸ hl)
    ⟨by simp [hdst], fun t ht => (hreads _ ht).2, fun l hl => hreads _ hl, hnames⟩
  have hD : D \ {l | i.label? = some l} = D := by simp [hlabel]
  rwa [hD] at hinv

theorem Inv.ret (h : Inv N D S A s) {value : Option Operand}
    (hreads : ∀ o ∈ value, Usable A s o) :
    Inv N D S Set.univ { s with code := s.code.push (.ret value) } := by
  have hreads' : ∀ o ∈ (Inst.ret value).operands, Usable A s o :=
    fun o ho => hreads o (Option.mem_toList.mp ho)
  have hinv := h.emit (i := .ret value) ⟨fun t ht => (hreads' _ ht).1, nofun, nofun⟩ nofun nofun
    ⟨nofun, fun t ht => (hreads' _ ht).2, fun l hl => hreads' _ hl, trivial⟩
  have hD : D \ {l | (Inst.ret value).label? = some l} = D := by simp [Inst.label?]
  rwa [hD] at hinv

/-- A label that is owed is put where all that it promises is available. -/
theorem Inv.label (h : Inv N (insert l D) S A s) (hl : l ∉ D) (hS : S l ⊆ A) :
    Inv N D S (S l) { s with code := s.code.push (.label l) } := by
  have hself (l' : Label) (h' : (Inst.label l).label? = some l') : l' = l :=
    (Option.some.inj h').symm
  have hinv := h.emit (i := .label l) ⟨nofun, nofun, fun l' h' => hself l' h' ▸ hS⟩
    (fun l' h' => hself l' h' ▸ Set.mem_insert l D) nofun ⟨nofun, nofun, nofun, trivial⟩
  have hD : insert l D \ {l' | (Inst.label l).label? = some l'} = D := by
    simp [Inst.label?, hl]
  rwa [hD] at hinv

theorem Inv.freshTemp (h : Inv N D S A s) : Inv N D S A { s with temps := s.temps + 1 } :=
  { h with fine := fun i hi => (h.fine i hi).mono (Nat.le_succ _) (List.Subset.refl _) }

theorem Inv.addText (h : Inv N D S A s) (d : Datum) :
    Inv N D S A { s with data := s.data.push d } :=
  { h with fine := fun i hi => (h.fine i hi).mono (Nat.le_refl _) (by simp) }

theorem Inv.slots (h : Inv N D S A s) (slots : Slots) : Inv N D S A { s with slots } :=
  { h with fine := h.fine }

/-- A new label is owed; it may promise anything. -/
theorem Inv.freshLabel (h : Inv N D S A s) (kind : String) (X : Set Temp) :
    Inv N (insert (labelName kind s.labels) D) (Function.update S (labelName kind s.labels) X) A
      { s with labels := s.labels + 1 } := by
  have hne (l : Label) (hl : l ∈ labelsOf s.code.toList ∨ l ∈ D) :
      Function.update S (labelName kind s.labels) X l = S l :=
    Function.update_of_ne ((h.old l hl).ne kind) X S
  obtain ⟨hflows, hall⟩ := flows_congr (fun i hi l hl => by
    rcases hl with hl | hl
    · exact hne l (.inl (List.mem_filterMap.mpr ⟨i, hi, hl⟩))
    · exact hne l (h.targets i hi l hl)) h.flows
  refine ⟨h.labels, ?_, ?_, ?_, hflows, hall.trans h.available, ?_⟩
  · rintro l (hl | rfl | hl)
    · exact (h.old l (.inl hl)).mono (Nat.le_succ _)
    · exact old_labelName kind _
    · exact (h.old l (.inr hl)).mono (Nat.le_succ _)
  · rintro l (rfl | hl) hmem
    · exact not_old_labelName kind _ (h.old _ (.inl hmem))
    · exact h.owed l hl hmem
  · intro i hi l hl
    exact (h.targets i hi l hl).imp_right (Set.mem_insert_of_mem _)
  · intro i hi
    exact h.fine i hi

/-- A number may be passed over. -/
theorem Inv.spareLabel (h : Inv N D S A s) : Inv N D S A { s with labels := s.labels + 1 } :=
  { h with
    old := fun l hl => (h.old l hl).mono (Nat.le_succ _)
    fine := fun i hi => h.fine i hi }

theorem Later.spareLabel (S : Summary) (A : Set Temp) (s : State) :
    Later S A s S A { s with labels := s.labels + 1 } :=
  ⟨fun _ _ => rfl, subset_rfl, Nat.le_refl _, Nat.le_succ _, List.prefix_rfl⟩

theorem Later.freshTemp (S : Summary) (A : Set Temp) (s : State) :
    Later S A s S A { s with temps := s.temps + 1 } :=
  ⟨fun _ _ => rfl, subset_rfl, Nat.le_succ _, Nat.le_refl _, List.prefix_rfl⟩

theorem Later.slots (S : Summary) (A : Set Temp) (s : State) (slots : Slots) :
    Later S A s S A { s with slots } :=
  ⟨fun _ _ => rfl, subset_rfl, Nat.le_refl _, Nat.le_refl _, List.prefix_rfl⟩

/-- An instruction loses nothing if what was available still is. -/
theorem Later.emit {S : Summary} {A A' : Set Temp} (s : State) (i : Inst) (h : A ⊆ A') :
    Later S A s S A' { s with code := s.code.push i } :=
  ⟨fun _ _ => rfl, h, Nat.le_refl _, Nat.le_refl _, List.prefix_rfl⟩

theorem Later.freshLabel (S : Summary) (A : Set Temp) (s : State) (kind : String) (X : Set Temp) :
    Later S A s (Function.update S (labelName kind s.labels) X) A
      { s with labels := s.labels + 1 } :=
  ⟨fun _ hl => Function.update_of_ne (hl.ne kind) X S, subset_rfl, Nat.le_refl _, Nat.le_succ _,
    List.prefix_rfl⟩

/-! The primitive actions, as they are met on the way through a shape of control. -/

/-- Nothing is lost, and nothing is bound. -/
structure Calm (S : Summary) (A : Set Temp) (s : State) (S' : Summary) (A' : Set Temp)
    (s' : State) : Prop extends Later S A s S' A' s' where
  slots : s'.slots = s.slots

theorem Calm.trans (h : Calm S A s S' A' s') (k : Calm S' A' s' S'' A'' s'') :
    Calm S A s S'' A'' s'' :=
  ⟨h.toLater.trans k.toLater, k.slots.trans h.slots⟩

theorem Later.calm (h : Later S A s S' A' s') (k : Extends id s s') : Calm S A s S' A' s' :=
  ⟨h, k.slots⟩

/-- An old label promises `X`. -/
structure Promises (S : Summary) (s : State) (l : Label) (X : Set Temp) : Prop where
  summary : S l = X
  old : Old s.labels l

theorem Promises.later {X : Set Temp} (h : Promises S s l X) (k : Later S A s S' A' s') :
    Promises S' s' l X :=
  ⟨(k.summary l h.old).trans h.summary, h.old.mono k.labels⟩

theorem Promises.put {X : Set Temp} {k : Label} {u : Unit} (h : Promises S s l X)
    (hrun : Lowering.emit (.label k) s = .ok (u, s')) : Promises S s' l X := by
  obtain rfl := emit_eq_ok.mp hrun
  exact ⟨h.summary, h.old⟩

theorem Inv.owe {kind : String} (h : Inv N D S A s) (hrun : Lowering.freshLabel kind s = .ok (l, s'))
    (X : Set Temp) :
    ∃ S', Inv N (insert l D) S' A s' ∧ Calm S A s S' A s' ∧ Promises S' s' l X ∧ l ∉ D := by
  obtain ⟨rfl, rfl⟩ := freshLabel_eq_ok.mp hrun
  exact ⟨_, h.freshLabel kind X, ⟨.freshLabel S A s kind X, rfl⟩,
    ⟨Function.update_self .., old_labelName _ _⟩,
    fun hD => not_old_labelName _ _ (h.old _ (.inr hD))⟩

theorem Inv.spare {kind : String} (h : Inv N D S A s) (hrun : Lowering.freshLabel kind s = .ok (l, s')) :
    Inv N D S A s' ∧ Calm S A s S A s' := by
  obtain ⟨-, rfl⟩ := freshLabel_eq_ok.mp hrun
  exact ⟨h.spareLabel, .spareLabel S A s, rfl⟩

theorem Inv.takeTemp {t : Temp} (h : Inv N D S A s) (hrun : Lowering.freshTemp s = .ok (t, s')) :
    Inv N D S A s' ∧ Calm S A s S A s' ∧ t = s.temps ∧ t < s'.temps := by
  cases hrun
  exact ⟨h.freshTemp, ⟨.freshTemp S A s, rfl⟩, rfl, Nat.lt_succ_self _⟩

theorem Inv.goto {u : Unit} (h : Inv N D S A s) (hrun : Lowering.emit i s = .ok (u, s'))
    (htarget : i.target? = some l) (hl : l ∈ labelsOf s.code.toList ∨ l ∈ D) (hS : S l ⊆ A)
    (hreads : ∀ o ∈ i.operands, Usable A s o) :
    ∃ A', Inv N D S A' s' ∧ Calm S A s S A' s' := by
  obtain rfl := emit_eq_ok.mp hrun
  have hA : A ⊆ after S A i := by
    cases i <;> cases htarget
    · exact Set.subset_univ _
    · exact Set.subset_union_right
    · exact Set.subset_union_right
  exact ⟨_, h.jump htarget hl hS hreads, .emit s i hA, rfl⟩

/-- A value is copied to a temporary that is there already. -/
theorem Inv.assign {u : Unit} {t : Temp} (h : Inv N D S A s)
    (hrun : Lowering.emit (.copy t o) s = .ok (u, s')) (ht : t < s.temps) (ho : Usable A s o) :
    Inv N D S ({t} ∪ A) s' ∧ Calm S A s S ({t} ∪ A) s' := by
  obtain rfl := emit_eq_ok.mp hrun
  have hinv := h.straight (i := .copy t o) rfl rfl rfl (by simpa [Inst.operands] using ho)
    (fun t' ht' => by cases ht'; exact ht) trivial
  have hset : {t' | (Inst.copy t o).dst? = some t'} = {t} := by
    simp [Inst.dst?]
  rw [hset] at hinv
  exact ⟨hinv, .emit s _ Set.subset_union_right, rfl⟩

/-- What is available after a label is what it promised. -/
theorem Inv.put {u : Unit} {X : Set Temp} (h : Inv N (insert l D) S' A' s')
    (hrun : Lowering.emit (.label l) s' = .ok (u, s'')) (hl : l ∉ D) (k : Calm S A s S' A' s')
    (hS : Promises S' s' l X) (hAX : A ⊆ X) (hXA : X ⊆ A') :
    Inv N D S' X s'' ∧ Calm S A s S' X s'' := by
  obtain rfl := emit_eq_ok.mp hrun
  have hinv := h.label hl (hS.summary.subset.trans hXA)
  rw [hS.summary] at hinv
  exact ⟨hinv, ⟨k.summary, hAX, k.temps, k.labels, k.data⟩, k.slots⟩

end Invariant

end MiniC.Lowering
