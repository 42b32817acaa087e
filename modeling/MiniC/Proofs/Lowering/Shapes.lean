import MiniC.Proofs.Lowering.Sound
/-!
Shapes of control keep the invariant. A label promises what is available when it is made, and the
label at the end of a conditional promises its result besides. Main statements: a shape is sound if
the actions in it are, with the labels of a loop as targets of its body.
-/
namespace MiniC.Lowering

open Code (Inst Label Names Operand Summary Temp labelsOf)
open Syntax

variable {N : Names} {T : Set Label} {L : Locals} {os : List Operand} {cond yes no left right : Lower Operand}
  {body other : Lower Unit}

theorem sound_ifOnly (hc : Sound N T L L os cond fun v => [v])
    (hy : Sound N T L L os body fun _ => []) (hg : Grows id body) :
    Sound N T L L os (ifOnly cond body) fun _ => [] := by
  intro D S A s u s' hrun hready
  obtain ⟨c, s₁, hcrun, hrun⟩ := bind_eq_ok.mp hrun
  obtain ⟨skip, s₂, hskiprun, hrun⟩ := bind_eq_ok.mp hrun
  obtain ⟨_, s₃, hspare, hrun⟩ := bind_eq_ok.mp hrun
  obtain ⟨_, s₄, hbranch, hrun⟩ := bind_eq_ok.mp hrun
  obtain ⟨_, s₅, hyrun, hput⟩ := bind_eq_ok.mp hrun
  obtain ⟨S₁, A₁, ready₁, later₁⟩ := hc hcrun hready
  obtain ⟨S₂, inv₂, calm₂, hskip, hnew⟩ := ready₁.inv.owe hskiprun A₁
  obtain ⟨inv₃, calm₃⟩ := inv₂.spare hspare
  have calm₁₃ := calm₂.trans calm₃
  have ready₃ := ready₁.owing inv₃ calm₁₃
  obtain ⟨A₄, inv₄, calm₄⟩ := inv₃.goto hbranch rfl (.inr (Set.mem_insert _ _))
    hskip.summary.subset (by simpa [Inst.operands] using ready₃.usable c (by simp))
  obtain ⟨S₅, A₅, ready₅, later₅⟩ := hy hyrun (ready₃.calm inv₄ calm₄ subset_rfl).forget
  have calm₁₅ := (calm₁₃.trans calm₄).trans (later₅.calm (hg.extends_of hyrun))
  have hskip₅ := (hskip.later (calm₃.trans calm₄).toLater).later later₅
  obtain ⟨inv₆, calm₁₆⟩ :=
    ready₅.inv.put hput hnew calm₁₅ hskip₅ subset_rfl calm₁₅.available
  exact ⟨S₅, A₁, (ready₁.calm inv₆ calm₁₆ subset_rfl).forget, later₁.trans calm₁₆.toLater⟩

theorem sound_ifElse (hc : Sound N T L L os cond fun v => [v])
    (hy : Sound N T L L os body fun _ => []) (hyg : Grows id body)
    (hn : Sound N T L L os other fun _ => []) (hng : Grows id other) :
    Sound N T L L os (ifElse cond body other) fun _ => [] := by
  intro D S A s u s' hrun hready
  obtain ⟨c, s₁, hcrun, hrun⟩ := bind_eq_ok.mp hrun
  obtain ⟨skip, s₂, hskiprun, hrun⟩ := bind_eq_ok.mp hrun
  obtain ⟨stop, s₃, hstoprun, hrun⟩ := bind_eq_ok.mp hrun
  obtain ⟨_, s₄, hbranch, hrun⟩ := bind_eq_ok.mp hrun
  obtain ⟨_, s₅, hyrun, hrun⟩ := bind_eq_ok.mp hrun
  obtain ⟨_, s₆, hjump, hrun⟩ := bind_eq_ok.mp hrun
  obtain ⟨_, s₇, hput, hrun⟩ := bind_eq_ok.mp hrun
  obtain ⟨_, s₈, hnrun, hputStop⟩ := bind_eq_ok.mp hrun
  obtain ⟨S₁, A₁, ready₁, later₁⟩ := hc hcrun hready
  obtain ⟨S₂, inv₂, calm₂, hskip, hnew⟩ := ready₁.inv.owe hskiprun A₁
  obtain ⟨S₃, inv₃, calm₃, hstop, hnewStop⟩ := inv₂.owe hstoprun A₁
  have hskip₃ := hskip.later calm₃.toLater
  have calm₁₃ := calm₂.trans calm₃
  -- the label in the middle is put first
  rw [Set.insert_comm] at inv₃
  have hnew₃ : skip ∉ insert stop D := by
    rintro (rfl | h)
    · exact hnewStop (Set.mem_insert _ _)
    · exact hnew h
  have ready₃ := ready₁.calm inv₃ calm₁₃ fun l hl => .inr (.inr hl)
  obtain ⟨A₄, inv₄, calm₄⟩ := inv₃.goto hbranch rfl (.inr (Set.mem_insert _ _))
    hskip₃.summary.subset (by simpa [Inst.operands] using ready₃.usable c (by simp))
  obtain ⟨S₅, A₅, ready₅, later₅⟩ := hy hyrun (ready₃.calm inv₄ calm₄ subset_rfl).forget
  have calm₁₅ := (calm₁₃.trans calm₄).trans (later₅.calm (hyg.extends_of hyrun))
  have hstop₅ := hstop.later (calm₄.toLater.trans later₅)
  obtain ⟨A₆, inv₆, calm₆⟩ := ready₅.inv.goto hjump rfl (.inr (.inr (Set.mem_insert _ _)))
    (hstop₅.summary.subset.trans calm₁₅.available) (List.forall_mem_nil _)
  have calm₁₆ := calm₁₅.trans calm₆
  obtain ⟨inv₇, calm₁₇⟩ := inv₆.put hput hnew₃ calm₁₆
    (hskip₃.later ((calm₄.toLater.trans later₅).trans calm₆.toLater)) subset_rfl calm₁₆.available
  obtain ⟨S₈, A₈, ready₈, later₈⟩ := hn hnrun (ready₁.owing inv₇ calm₁₇).forget
  have calm₁₈ := calm₁₇.trans (later₈.calm (hng.extends_of hnrun))
  obtain ⟨inv₉, calm₁₉⟩ := ready₈.inv.put hputStop (fun h => hnewStop (.inr h)) calm₁₈
    (((hstop₅.later calm₆.toLater).put hput).later later₈) subset_rfl calm₁₈.available
  exact ⟨S₈, A₁, (ready₁.calm inv₉ calm₁₉ subset_rfl).forget, later₁.trans calm₁₉.toLater⟩

theorem temps_emit {i : Inst} {u : Unit} {s s' : State} (h : emit i s = .ok (u, s')) :
    s.temps ≤ s'.temps :=
  (Grows.extends_of (.emit i) h).temps

theorem sound_conditional (hc : Sound N T L L os cond fun v => [v])
    (hy : Sound N T L L os yes fun v => [v]) (hyg : Grows id yes)
    (hn : Sound N T L L os no fun v => [v]) (hng : Grows id no) :
    Sound N T L L os (conditional cond yes no) fun v => [v] := by
  intro D S A s v s' hrun hready
  obtain ⟨c, s₁, hcrun, hrun⟩ := bind_eq_ok.mp hrun
  obtain ⟨skip, s₂, hskiprun, hrun⟩ := bind_eq_ok.mp hrun
  obtain ⟨stop, s₃, hstoprun, hrun⟩ := bind_eq_ok.mp hrun
  obtain ⟨result, s₄, hresult, hrun⟩ := bind_eq_ok.mp hrun
  obtain ⟨_, s₅, hbranch, hrun⟩ := bind_eq_ok.mp hrun
  obtain ⟨y, s₆, hyrun, hrun⟩ := bind_eq_ok.mp hrun
  obtain ⟨_, s₇, hycopy, hrun⟩ := bind_eq_ok.mp hrun
  obtain ⟨_, s₈, hjump, hrun⟩ := bind_eq_ok.mp hrun
  obtain ⟨_, s₉, hput, hrun⟩ := bind_eq_ok.mp hrun
  obtain ⟨n, s₁₀, hnrun, hrun⟩ := bind_eq_ok.mp hrun
  obtain ⟨_, s₁₁, hncopy, hrun⟩ := bind_eq_ok.mp hrun
  obtain ⟨_, s₁₂, hputStop, hrun⟩ := bind_eq_ok.mp hrun
  obtain ⟨rfl, rfl⟩ := pure_eq_ok.mp hrun
  obtain ⟨S₁, A₁, ready₁, later₁⟩ := hc hcrun hready
  obtain ⟨S₂, inv₂, calm₂, hskip, hnew⟩ := ready₁.inv.owe hskiprun A₁
  obtain ⟨S₃, inv₃, calm₃, hstop, hnewStop⟩ := inv₂.owe hstoprun ({result} ∪ A₁)
  have hskip₃ := hskip.later calm₃.toLater
  rw [Set.insert_comm] at inv₃
  have hnew₃ : skip ∉ insert stop D := by
    rintro (rfl | h)
    · exact hnewStop (Set.mem_insert _ _)
    · exact hnew h
  obtain ⟨inv₄, calm₄, -, htemp⟩ := inv₃.takeTemp hresult
  have calm₁₄ := (calm₂.trans calm₃).trans calm₄
  have ready₄ := ready₁.calm inv₄ calm₁₄ fun l hl => .inr (.inr hl)
  obtain ⟨A₅, inv₅, calm₅⟩ := inv₄.goto hbranch rfl (.inr (Set.mem_insert _ _))
    (hskip₃.later calm₄.toLater).summary.subset
    (by simpa [Inst.operands] using ready₄.usable c (by simp))
  have calm₁₅ := calm₁₄.trans calm₅
  obtain ⟨S₆, A₆, ready₆, later₆⟩ := hy hyrun (ready₄.calm inv₅ calm₅ subset_rfl).forget
  have calm₁₆ := calm₁₅.trans (later₆.calm (hyg.extends_of hyrun))
  have htemp₆ := Nat.lt_of_lt_of_le htemp (Nat.le_trans calm₅.temps later₆.temps)
  obtain ⟨inv₇, calm₇⟩ := ready₆.inv.assign hycopy htemp₆ (ready₆.usable y (by simp))
  have hstop₇ := hstop.later (((calm₄.trans calm₅).toLater.trans later₆).trans calm₇.toLater)
  obtain ⟨A₈, inv₈, calm₈⟩ := inv₇.goto hjump rfl (.inr (.inr (Set.mem_insert _ _)))
    (hstop₇.summary.subset.trans (Set.union_subset_union_right _ calm₁₆.available))
    (List.forall_mem_nil _)
  have calm₁₈ := (calm₁₆.trans calm₇).trans calm₈
  have hskip₈ := (hskip₃.later (((calm₄.trans calm₅).toLater.trans later₆).trans calm₇.toLater)).later
    calm₈.toLater
  obtain ⟨inv₉, calm₁₉⟩ := inv₈.put hput hnew₃ calm₁₈ hskip₈ subset_rfl calm₁₈.available
  obtain ⟨S₁₀, A₁₀, ready₁₀, later₁₀⟩ := hn hnrun (ready₁.owing inv₉ calm₁₉).forget
  have calm₁₁₀ := calm₁₉.trans (later₁₀.calm (hng.extends_of hnrun))
  have htemp₉ : s₆.temps ≤ s₉.temps := Nat.le_trans (calm₇.trans calm₈).temps (temps_emit hput)
  have htemp₁₀ := Nat.lt_of_lt_of_le htemp₆ (Nat.le_trans htemp₉ later₁₀.temps)
  obtain ⟨inv₁₁, calm₁₁⟩ := ready₁₀.inv.assign hncopy htemp₁₀ (ready₁₀.usable n (by simp))
  have hstop₁₁ := (((hstop₇.later calm₈.toLater).put hput).later later₁₀).later calm₁₁.toLater
  obtain ⟨inv₁₂, calm₁₂⟩ := inv₁₁.put hputStop (fun h => hnewStop (.inr h)) (calm₁₁₀.trans calm₁₁)
    hstop₁₁ Set.subset_union_right (Set.union_subset_union_right _ calm₁₁₀.available)
  have ready₁₂ := (ready₁.calm inv₁₂ calm₁₂ subset_rfl).forget
  have htemp₁₂ := Nat.lt_of_lt_of_le htemp₁₀ (Nat.le_trans calm₁₁.temps (temps_emit hputStop))
  have husable : Usable ({result} ∪ A₁) s₁₂ (.temp result) := ⟨.inl rfl, htemp₁₂⟩
  exact ⟨S₁₀, _, ready₁₂.adds husable, later₁.trans calm₁₂.toLater⟩

theorem sound_logical (isAnd : Bool) (hl : Sound N T L L os left fun v => [v])
    (hlg : Grows id left) (hr : Sound N T L L os right fun v => [v]) (hrg : Grows id right) :
    Sound N T L L os (logical isAnd left right) fun v => [v] := by
  intro D S A s v s' hrun hready
  obtain ⟨result, s₁, hresult, hrun⟩ := bind_eq_ok.mp hrun
  obtain ⟨short, s₂, hshortrun, hrun⟩ := bind_eq_ok.mp hrun
  obtain ⟨stop, s₃, hstoprun, hrun⟩ := bind_eq_ok.mp hrun
  obtain ⟨l, s₄, hlrun, hrun⟩ := bind_eq_ok.mp hrun
  obtain ⟨_, s₅, hbranch, hrun⟩ := bind_eq_ok.mp hrun
  obtain ⟨r, s₆, hrrun, hrun⟩ := bind_eq_ok.mp hrun
  obtain ⟨truth, s₇, htruth, hrun⟩ := bind_eq_ok.mp hrun
  obtain ⟨_, s₈, hcopy, hrun⟩ := bind_eq_ok.mp hrun
  obtain ⟨_, s₉, hjump, hrun⟩ := bind_eq_ok.mp hrun
  obtain ⟨_, s₁₀, hput, hrun⟩ := bind_eq_ok.mp hrun
  obtain ⟨_, s₁₁, hconst, hrun⟩ := bind_eq_ok.mp hrun
  obtain ⟨_, s₁₂, hputStop, hrun⟩ := bind_eq_ok.mp hrun
  obtain ⟨rfl, rfl⟩ := pure_eq_ok.mp hrun
  obtain ⟨inv₁, calm₁, -, htemp⟩ := hready.inv.takeTemp hresult
  obtain ⟨S₂, inv₂, calm₂, hshort, hnew⟩ := inv₁.owe hshortrun A
  obtain ⟨S₃, inv₃, calm₃, hstop, hnewStop⟩ := inv₂.owe hstoprun ({result} ∪ A)
  rw [Set.insert_comm] at inv₃
  have hnew₃ : short ∉ insert stop D := by
    rintro (rfl | h)
    · exact hnewStop (Set.mem_insert _ _)
    · exact hnew h
  have calm₀₃ := (calm₁.trans calm₂).trans calm₃
  obtain ⟨S₄, A₄, ready₄, later₄⟩ := hl hlrun (hready.calm inv₃ calm₀₃ fun l hl => .inr (.inr hl))
  have calm₀₄ := calm₀₃.trans (later₄.calm (hlg.extends_of hlrun))
  have hshort₄ := (hshort.later calm₃.toLater).later later₄
  obtain ⟨A₅, inv₅, calm₅⟩ : ∃ A₅, Inv N (insert short (insert stop D)) S₄ A₅ s₅ ∧
      Calm S₄ A₄ s₄ S₄ A₅ s₅ := by
    have hsub := hshort₄.summary.subset.trans calm₀₄.available
    have husable := ready₄.usable l (by simp)
    cases isAnd
    · exact ready₄.inv.goto hbranch rfl (.inr (Set.mem_insert _ _)) hsub
        (by simpa [Inst.operands] using husable)
    · exact ready₄.inv.goto hbranch rfl (.inr (Set.mem_insert _ _)) hsub
        (by simpa [Inst.operands] using husable)
  obtain ⟨S₆, A₆, ready₆, later₆⟩ := hr hrrun (ready₄.calm inv₅ calm₅ subset_rfl).forget
  have hne : Sound N T L L ([r] ++ os) (define (.binary · .ne r (.const 0))) fun v => [v] :=
    sound_binary _ (has_self _ _) (has_const _ _)
  obtain ⟨S₇, A₇, ready₇, later₇⟩ := hne htruth ready₆
  have calm₅₇ := (later₆.calm (hrg.extends_of hrrun)).trans
    (later₇.calm (Grows.extends_of (.define _) htruth))
  have calm₀₇ := (calm₀₄.trans calm₅).trans calm₅₇
  have htemp₇ : result < s₇.temps := Nat.lt_of_lt_of_le htemp
    (((calm₂.trans calm₃).toLater.trans later₄).trans (calm₅.trans calm₅₇).toLater).temps
  obtain ⟨inv₈, calm₈⟩ := ready₇.inv.assign hcopy htemp₇ (ready₇.usable truth (by simp))
  have hstop₈ := (hstop.later (later₄.trans (calm₅.trans calm₅₇).toLater)).later calm₈.toLater
  obtain ⟨A₉, inv₉, calm₉⟩ := inv₈.goto hjump rfl (.inr (.inr (Set.mem_insert _ _)))
    (hstop₈.summary.subset.trans (Set.union_subset_union_right _ calm₀₇.available))
    (List.forall_mem_nil _)
  have calm₀₉ := (calm₀₇.trans calm₈).trans calm₉
  obtain ⟨inv₁₀, calm₀₁₀⟩ := inv₉.put hput hnew₃ calm₀₉
    (hshort₄.later ((calm₅.trans calm₅₇).trans (calm₈.trans calm₉)).toLater) subset_rfl
    calm₀₉.available
  have htemp₁₀ := Nat.lt_of_lt_of_le htemp₇
    (Nat.le_trans (calm₈.trans calm₉).temps (temps_emit hput))
  obtain ⟨inv₁₁, calm₁₁⟩ := inv₁₀.assign hconst htemp₁₀ trivial
  obtain ⟨inv₁₂, calm₀₁₂⟩ := inv₁₁.put hputStop (fun h => hnewStop (.inr h)) (calm₀₁₀.trans calm₁₁)
    (((hstop₈.later calm₉.toLater).put hput).later calm₁₁.toLater) Set.subset_union_right subset_rfl
  have htemp₁₂ := Nat.lt_of_lt_of_le htemp₁₀ (Nat.le_trans calm₁₁.temps (temps_emit hputStop))
  have husable : Usable ({result} ∪ A) s₁₂ (.temp result) := ⟨.inl rfl, htemp₁₂⟩
  exact ⟨S₇, _, (hready.calm inv₁₂ calm₀₁₂ subset_rfl).adds husable, calm₀₁₂.toLater⟩

/-- A label that was put stands in all later code. -/
theorem mem_labelsOf_of_put {l : Label} {u : Unit} {s s' t : State}
    (hput : emit (.label l) s = .ok (u, s')) (hgrow : Extends id s' t) :
    l ∈ labelsOf t.code.toList := by
  obtain rfl := emit_eq_ok.mp hput
  refine (hgrow.code.filterMap Inst.label?).subset ?_
  simp [Inst.label?]

/-- The targets inside the body of a loop. -/
def loopTargets (stop next : Label) : Set Label := {stop, next}

/-- The labels of a loop, while they are owed; each promises what was available before the loop. -/
structure LoopLabels (D D' : Set Label) (top entry next stop : Label) : Prop where
  owed : D' = insert top (insert entry (insert next (insert stop D)))
  top : top ∉ insert entry (insert next (insert stop D))
  entry : entry ∉ insert next (insert stop D)
  next : next ∉ insert stop D
  stop : stop ∉ D

theorem LoopLabels.intro {D : Set Label} {top entry next stop : Label} (htop : top ∉ D)
    (hentry : entry ∉ insert top D) (hnext : next ∉ insert entry (insert top D))
    (hstop : stop ∉ insert next (insert entry (insert top D))) :
    LoopLabels D (insert stop (insert next (insert entry (insert top D)))) top entry next stop := by
  simp only [Set.mem_insert_iff, not_or] at hentry hnext hstop
  constructor
  · ext l
    simp only [Set.mem_insert_iff]
    tauto
  · simp only [Set.mem_insert_iff, not_or]
    exact ⟨Ne.symm hentry.1, Ne.symm hnext.2.1, Ne.symm hstop.2.2.1, htop⟩
  · simp only [Set.mem_insert_iff, not_or]
    exact ⟨Ne.symm hnext.1, Ne.symm hstop.2.1, hentry.2⟩
  · simp only [Set.mem_insert_iff, not_or]
    exact ⟨Ne.symm hstop.1, hnext.2.2⟩
  · exact hstop.2.2.2

variable {test : Label → Lower Unit} {round : Label → Label → Lower Unit} {update : Lower Unit}

/-- From the top of a loop to its end. -/
theorem sound_rounds (ht : ∀ l, Sound N (insert l T) L L os (test l) fun _ => [])
    (htg : ∀ l, Grows id (test l))
    (hb : ∀ stop next, Sound N (loopTargets stop next) L L os (round stop next) fun _ => [])
    (hbg : ∀ stop next, Grows id (round stop next)) (hu : Sound N T L L os update fun _ => [])
    (hug : Grows id update) {D D' : Set Label} {S₀ S : Summary} {A₀ A : Set Temp} {s₀ s s' : State}
    {u : Unit} {top entry next stop : Label} (hlabels : LoopLabels D D' top entry next stop)
    (hrun : (do
      emit (.label top); test stop; emit (.label entry); round stop next; emit (.label next)
      update; emit (.jump top); emit (.label stop) : Lower Unit) s = .ok (u, s'))
    (base : Ready N T L os D S₀ A₀ s₀) (inv : Inv N D' S A s) (calm : Calm S₀ A₀ s₀ S A s)
    (htop : Promises S s top A₀) (hentry : Promises S s entry A₀) (hnext : Promises S s next A₀)
    (hstop : Promises S s stop A₀) :
    ∃ S' A', Inv N D S' A' s' ∧ Calm S₀ A₀ s₀ S' A' s' := by
  obtain ⟨_, s₁, hputTop, hrun⟩ := bind_eq_ok.mp hrun
  obtain ⟨_, s₂, htrun, hrun⟩ := bind_eq_ok.mp hrun
  obtain ⟨_, s₃, hputEntry, hrun⟩ := bind_eq_ok.mp hrun
  obtain ⟨_, s₄, hbrun, hrun⟩ := bind_eq_ok.mp hrun
  obtain ⟨_, s₅, hputNext, hrun⟩ := bind_eq_ok.mp hrun
  obtain ⟨_, s₆, hurun, hrun⟩ := bind_eq_ok.mp hrun
  obtain ⟨_, s₇, hjump, hputStop⟩ := bind_eq_ok.mp hrun
  obtain ⟨rfl, hnewTop, hnewEntry, hnewNext, hnewStop⟩ := hlabels
  obtain ⟨inv₁, calm₁⟩ := inv.put hputTop hnewTop calm htop subset_rfl calm.available
  have hstop₁ := hstop.put hputTop
  have ready₁ : Ready N (insert stop T) L os (insert entry (insert next (insert stop D))) S A₀ s₁ := by
    have hready := base.calm inv₁ calm₁ fun l hl => .inr (.inr (.inr hl))
    refine { hready with targets := ?_ }
    rintro l (rfl | hl)
    · exact ⟨.inr (.inr (.inl rfl)), hstop₁.summary.subset⟩
    · exact hready.targets l hl
  obtain ⟨S₂, A₂, ready₂, later₂⟩ := ht stop htrun ready₁
  have calm₂ := calm₁.trans (later₂.calm ((htg stop).extends_of htrun))
  obtain ⟨inv₃, calm₃⟩ := ready₂.inv.put hputEntry hnewEntry calm₂
    ((hentry.put hputTop).later later₂) subset_rfl calm₂.available
  have hstop₃ := (hstop₁.later later₂).put hputEntry
  have hnext₃ := ((hnext.put hputTop).later later₂).put hputEntry
  have ready₃ : Ready N (loopTargets stop next) L os (insert next (insert stop D)) S₂ A₀ s₃ := by
    refine { base.calm inv₃ calm₃ fun l hl => .inr (.inr hl) with targets := ?_ }
    rintro l (rfl | rfl)
    · exact ⟨.inr (.inl rfl), hstop₃.summary.subset⟩
    · exact ⟨.inl rfl, hnext₃.summary.subset⟩
  obtain ⟨S₄, A₄, ready₄, later₄⟩ := hb stop next hbrun ready₃
  have calm₄ := calm₃.trans (later₄.calm ((hbg stop next).extends_of hbrun))
  obtain ⟨inv₅, calm₅⟩ := ready₄.inv.put hputNext hnewNext calm₄ (hnext₃.later later₄) subset_rfl
    calm₄.available
  obtain ⟨S₆, A₆, ready₆, later₆⟩ := hu hurun (base.calm inv₅ calm₅ (Set.subset_insert stop D))
  have calm₆ := calm₅.trans (later₆.calm (hug.extends_of hurun))
  have htop₆ := ((((htop.put hputTop).later later₂).put hputEntry).later later₄).put hputNext
  have hgrow := (((((htg stop).extends_of htrun).trans (Grows.extends_of (.emit _) hputEntry)).trans
    ((hbg stop next).extends_of hbrun)).trans (Grows.extends_of (.emit _) hputNext)).trans
    (hug.extends_of hurun)
  obtain ⟨A₇, inv₇, calm₇⟩ := ready₆.inv.goto hjump rfl (.inl (mem_labelsOf_of_put hputTop hgrow))
    ((htop₆.later later₆).summary.subset.trans calm₆.available)
    (List.forall_mem_nil _)
  have calm₀₇ := calm₆.trans calm₇
  obtain ⟨inv₈, calm₈⟩ := inv₇.put hputStop hnewStop calm₀₇
    ((((hstop₃.later later₄).put hputNext).later later₆).later calm₇.toLater) subset_rfl
    calm₀₇.available
  exact ⟨S₆, A₀, inv₈, calm₈⟩

theorem sound_loop (testsFirst : Bool)
    (ht : ∀ l, Sound N (insert l T) L L os (test l) fun _ => []) (htg : ∀ l, Grows id (test l))
    (hb : ∀ stop next, Sound N (loopTargets stop next) L L os (round stop next) fun _ => [])
    (hbg : ∀ stop next, Grows id (round stop next)) (hu : Sound N T L L os update fun _ => [])
    (hug : Grows id update) :
    Sound N T L L os (loop testsFirst test round update) fun _ => [] := by
  refine .of_calm fun D S A s u s' hrun hready => ?_
  obtain ⟨top, s₁, htop, hrun⟩ := bind_eq_ok.mp hrun
  obtain ⟨entry, s₂, hentry, hrun⟩ := bind_eq_ok.mp hrun
  obtain ⟨next, s₃, hnext, hrun⟩ := bind_eq_ok.mp hrun
  obtain ⟨stop, s₄, hstop, hrun⟩ := bind_eq_ok.mp hrun
  obtain ⟨S₁, inv₁, calm₁, ptop, ntop⟩ := hready.inv.owe htop A
  obtain ⟨S₂, inv₂, calm₂, pentry, nentry⟩ := inv₁.owe hentry A
  obtain ⟨S₃, inv₃, calm₃, pnext, nnext⟩ := inv₂.owe hnext A
  obtain ⟨S₄, inv₄, calm₄, pstop, nstop⟩ := inv₃.owe hstop A
  have calm₀₄ := ((calm₁.trans calm₂).trans calm₃).trans calm₄
  have ptop₄ := ptop.later ((calm₂.trans calm₃).trans calm₄).toLater
  have pentry₄ := pentry.later (calm₃.trans calm₄).toLater
  have pnext₄ := pnext.later calm₄.toLater
  have hlabels := LoopLabels.intro ntop nentry nnext nstop
  have hres {S' A'} (h : Inv N D S' A' s' ∧ Calm S A s S' A' s') :
      Inv N D S' A' s' ∧ Calm S A s S' A' s' ∧ ∀ o ∈ ([] : List Operand), Usable A' s' o :=
    ⟨h.1, h.2, nofun⟩
  cases testsFirst with
  | true =>
    obtain ⟨S', A', h⟩ := sound_rounds ht htg hb hbg hu hug hlabels hrun hready inv₄ calm₀₄ ptop₄
      pentry₄ pnext₄ pstop
    exact ⟨S', A', hres h⟩
  | false =>
    obtain ⟨_, s₅, hjump, hrun⟩ := bind_eq_ok.mp hrun
    obtain ⟨A₅, inv₅, calm₅⟩ := inv₄.goto hjump rfl (.inr (.inr (.inr (.inl rfl))))
      (pentry₄.summary.subset.trans calm₀₄.available) (List.forall_mem_nil _)
    obtain ⟨S', A', h⟩ := sound_rounds ht htg hb hbg hu hug hlabels hrun hready inv₅
      (calm₀₄.trans calm₅) (ptop₄.later calm₅.toLater) (pentry₄.later calm₅.toLater)
      (pnext₄.later calm₅.toLater) (pstop.later calm₅.toLater)
    exact ⟨S', A', hres h⟩

end MiniC.Lowering
