import MiniC.Proofs.Lowering.Invariant
/-!
Actions that keep the invariant. An action is `Sound` if it may be run whenever its operands, the
locals and its targets are available, and leaves its results available. Main statements: sound
actions follow one another, and arithmetic and the code for places are sound.
-/
namespace MiniC.Lowering

open Code (Inst Label Names Operand Summary Temp permits)
open Syntax

/-- The locals are those of `L`, and their addresses may be read. -/
structure Bound (L : Locals) (A : Set Temp) (s : State) : Prop where
  names : s.slots.map (·.map Prod.fst) = L
  usable : ∀ scope ∈ s.slots, ∀ x ∈ scope, Usable A s (.temp x.2)

/-- Labels that may be jumped to: they are owed, and what they promise is available. -/
def Targets (T D : Set Label) (S : Summary) (A : Set Temp) : Prop := ∀ l ∈ T, l ∈ D ∧ S l ⊆ A

/-- What an action needs: its operands, the locals and its targets. -/
structure Ready (N : Names) (T : Set Label) (L : Locals) (os : List Operand) (D : Set Label)
    (S : Summary) (A : Set Temp) (s : State) : Prop where
  inv : Inv N D S A s
  targets : Targets T D S A
  bound : Bound L A s
  usable : ∀ o ∈ os, Usable A s o

def Sound (N : Names) (T : Set Label) (L L' : Locals) (os : List Operand) (act : Lower α)
    (res : α → List Operand) : Prop :=
  ∀ ⦃D S A s a s'⦄, act s = .ok (a, s') → Ready N T L os D S A s →
    ∃ S' A', Ready N T L' (res a ++ os) D S' A' s' ∧ Later S A s S' A' s'

/-- An operand that is given, or a constant. -/
def Has (os : List Operand) (o : Operand) : Prop := o ∈ os ∨ ∃ n, o = .const n

section Basics

variable {N : Names} {T D : Set Label} {L L' L'' : Locals} {os os' : List Operand}
  {α β : Type} {act : Lower α} {res : α → List Operand} {S S' : Summary} {A A' X : Set Temp}
  {s s' : State} {o : Operand}

theorem has_self (os : List Operand) (o : Operand) : Has (o :: os) o := .inl (List.mem_cons_self ..)

theorem has_const (os : List Operand) (n : Int64) : Has os (.const n) := .inr ⟨n, rfl⟩

theorem Has.tail (h : Has os o) (o' : Operand) : Has (o' :: os) o :=
  h.imp_left (List.mem_cons_of_mem _)

theorem Has.append (h : Has os o) (os' : List Operand) : Has (os' ++ os) o :=
  h.imp_left (List.mem_append_right _)

theorem Has.usable (h : Has os o) (hos : ∀ o ∈ os, Usable A s o) : Usable A s o := by
  rcases h with hmem | ⟨n, rfl⟩
  · exact hos o hmem
  · trivial

theorem Bound.mono (h : Bound L A s) (hA : A ⊆ A') (ht : s.temps ≤ s'.temps)
    (hs : s'.slots = s.slots) : Bound L A' s' where
  names := by rw [hs]; exact h.names
  usable scope hscope x hx := by
    rw [hs] at hscope
    have hold := h.usable scope hscope x hx
    exact ⟨hA hold.1, Nat.lt_of_lt_of_le hold.2 ht⟩

theorem Targets.later (h : Targets T D S A) (hinv : Inv N D S A s) (k : Later S A s S' A' s') :
    Targets T D S' A' := by
  intro l hl
  obtain ⟨hD, hS⟩ := h l hl
  rw [k.summary l (hinv.old l (.inr hD))]
  exact ⟨hD, hS.trans k.available⟩

theorem Usable.all_later (h : ∀ o ∈ os, Usable A s o) (k : Later S A s S' A' s') :
    ∀ o ∈ os, Usable A' s' o :=
  fun o ho => (h o ho).later k

namespace Ready

variable {D' : Set Label}

theorem operands_mono (h : Ready N T L os D S A s) (hos : ∀ o ∈ os', Has os o) :
    Ready N T L os' D S A s :=
  { h with usable := fun o ho => (hos o ho).usable h.usable }

/-- Nothing that was ready is lost on the way through a shape of control. -/
theorem calm (h : Ready N T L os D S A s) (hinv : Inv N D' S' A' s') (k : Calm S A s S' A' s')
    (hD : D ⊆ D') : Ready N T L os D' S' A' s' where
  inv := hinv
  targets l hl := ⟨hD (h.targets.later h.inv k.toLater l hl).1,
    (h.targets.later h.inv k.toLater l hl).2⟩
  bound := h.bound.mono k.available k.temps k.slots
  usable := Usable.all_later h.usable k.toLater

theorem owing (h : Ready N T L os D S A s) {l : Label} (hinv : Inv N (insert l D) S' A' s')
    (k : Calm S A s S' A' s') : Ready N T L os (insert l D) S' A' s' :=
  h.calm hinv k (Set.subset_insert l D)

theorem adds (h : Ready N T L os D S A s) (ho : Usable A s o) :
    Ready N T L ([o] ++ os) D S A s := by
  refine { h with usable := ?_ }
  intro o' ho'
  rcases List.mem_cons.mp ho' with rfl | ho'
  · exact ho
  · exact h.usable o' ho'

theorem forget (h : Ready N T L (os' ++ os) D S A s) : Ready N T L os D S A s :=
  { h with usable := fun o ho => h.usable o (List.mem_append_right _ ho) }

end Ready

namespace Sound

theorem targets_mono {T' : Set Label} (h : Sound N T L L' os act res) (hT : T ⊆ T') :
    Sound N T' L L' os act res := by
  intro D S A s a s' hrun hready
  obtain ⟨S', A', hready', hlater⟩ :=
    h hrun { hready with targets := fun l hl => hready.targets l (hT hl) }
  exact ⟨S', A', { hready' with targets := hready.targets.later hready.inv hlater }, hlater⟩

theorem operands_mono (h : Sound N T L L' os act res) (hos : ∀ o ∈ os, Has os' o) :
    Sound N T L L' os' act res := by
  intro D S A s a s' hrun hready
  obtain ⟨S', A', hready', hlater⟩ := h hrun (hready.operands_mono hos)
  refine ⟨S', A', { hready' with usable := ?_ }, hlater⟩
  intro o ho
  rcases List.mem_append.mp ho with ho | ho
  · exact hready'.usable o (List.mem_append_left _ ho)
  · exact (hready.usable o ho).later hlater

theorem pure {a : α} (h : ∀ o ∈ res a, Has os o) : Sound N T L L os (pure a : Lower α) res := by
  intro D S A s b s' hrun hready
  obtain ⟨rfl, rfl⟩ := pure_eq_ok.mp hrun
  refine ⟨S, A, hready.operands_mono fun o ho => ?_, Later.refl S A s⟩
  rcases List.mem_append.mp ho with ho | ho
  · exact h o ho
  · exact .inl ho

theorem give {a : α} (ho : Has os o) (hres : res a = [o]) :
    Sound N T L L os (Pure.pure a : Lower α) res := by
  refine pure fun o' ho' => ?_
  rw [hres] at ho'
  obtain rfl := List.mem_singleton.mp ho'
  exact ho

/-- What follows may count on whatever holds of the results of an action. -/
theorem bind_of {x : Lower α} {k : α → Lower β} {r : β → List Operand} {P : α → Prop}
    (hx : Sound N T L L' os x res) (hP : ∀ s a s', x s = .ok (a, s') → P a)
    (hk : ∀ a, P a → Sound N T L' L'' (res a ++ os) (k a) r) :
    Sound N T L L'' os (x >>= k) r := by
  intro D S A s b s' hrun hready
  obtain ⟨a, t, hxrun, hkrun⟩ := bind_eq_ok.mp hrun
  obtain ⟨S₁, A₁, hready₁, hlater₁⟩ := hx hxrun hready
  obtain ⟨S₂, A₂, hready₂, hlater₂⟩ := hk a (hP s a t hxrun) hkrun hready₁
  refine ⟨S₂, A₂, hready₂.operands_mono fun o ho => .inl ?_, hlater₁.trans hlater₂⟩
  rcases List.mem_append.mp ho with ho | ho
  · exact List.mem_append_left _ ho
  · exact List.mem_append_right _ (List.mem_append_right _ ho)

theorem bind {x : Lower α} {k : α → Lower β} {r : β → List Operand}
    (hx : Sound N T L L' os x res) (hk : ∀ a, Sound N T L' L'' (res a ++ os) (k a) r) :
    Sound N T L L'' os (x >>= k) r :=
  hx.bind_of (P := fun _ => True) (fun _ _ _ _ => trivial) fun a _ => hk a

theorem map {f : α → β} {r : β → List Operand} (h : Sound N T L L' os act res)
    (hf : ∀ a, r (f a) = res a) : Sound N T L L' os (f <$> act) r := by
  intro D S A s b s' hrun hready
  obtain ⟨a, hact, rfl⟩ := map_eq_ok.mp hrun
  rw [hf]
  exact h hact hready

theorem discard (h : Sound N T L L' os act res) :
    Sound N T L L' os (discard act) fun _ => [] := by
  intro D S A s b s' hrun hready
  obtain ⟨a, hact, -⟩ := map_eq_ok.mp hrun
  obtain ⟨S', A', hready', hlater⟩ := h hact hready
  exact ⟨S', A', hready'.operands_mono fun o ho => .inl (List.mem_append_right _ ho), hlater⟩

theorem ite {c : Prop} [Decidable c] {x y : Lower α} (hx : Sound N T L L' os x res)
    (hy : Sound N T L L' os y res) : Sound N T L L' os (if c then x else y) res := by
  split
  · exact hx
  · exact hy

theorem throw (e : LoweringError) : Sound N T L L' os (throw e : Lower α) res :=
  fun _ _ _ _ _ _ hrun => absurd hrun throw_ne_ok

theorem need (e : LoweringError) (o : Option α) :
    Sound N T L L os (need e o) fun _ => [] := by
  intro D S A s a s' hrun hready
  obtain ⟨-, rfl⟩ := need_eq_ok.mp hrun
  exact ⟨S, A, hready, Later.refl S A s⟩

/-- An action that binds nothing and leaves one operand. -/
theorem of_calm (h : ∀ ⦃D S A s a s'⦄, act s = .ok (a, s') → Ready N T L os D S A s →
      ∃ S' A', Inv N D S' A' s' ∧ Calm S A s S' A' s' ∧ ∀ o ∈ res a, Usable A' s' o) :
    Sound N T L L os act res := by
  intro D S A s a s' hrun hready
  obtain ⟨S', A', hinv, hcalm, hres⟩ := h hrun hready
  have hready' := hready.calm hinv hcalm subset_rfl
  refine ⟨S', A', { hready' with usable := ?_ }, hcalm.toLater⟩
  intro o ho
  rcases List.mem_append.mp ho with ho | ho
  · exact hres o ho
  · exact hready'.usable o ho

theorem addText (text : String) :
    Sound N T L L os (addText text) fun l => [.data l] := by
  refine of_calm fun D S A s l s' hrun hready => ?_
  cases hrun
  refine ⟨S, A, hready.inv.addText _, ⟨⟨fun _ _ => rfl, subset_rfl, Nat.le_refl _, Nat.le_refl _,
    by simp⟩, rfl⟩, ?_⟩
  intro o ho
  obtain rfl := List.mem_singleton.mp ho
  simp [Usable]

/-- An instruction that writes no temporary. -/
theorem emit {i : Inst} (hlabel : i.label? = none) (htarget : i.target? = none)
    (hends : i.endsBlock = false) (hdst : i.dst? = none) (hnames : permits N i)
    (hreads : ∀ o ∈ i.operands, Has os o) : Sound N T L L os (emit i) fun _ => [] := by
  refine of_calm fun D S A s u s' hrun hready => ?_
  obtain rfl := emit_eq_ok.mp hrun
  have hinv := hready.inv.straight hlabel htarget hends
    (fun o ho => (hreads o ho).usable hready.usable) (by simp [hdst]) hnames
  exact ⟨S, _, hinv, ⟨.emit s i Set.subset_union_right, rfl⟩, nofun⟩

/-- An instruction that writes a new temporary. -/
theorem define {make : Temp → Inst} (hlabel : ∀ t, (make t).label? = none)
    (htarget : ∀ t, (make t).target? = none) (hends : ∀ t, (make t).endsBlock = false)
    (hdst : ∀ t, (make t).dst? = some t) (hnames : ∀ t, permits N (make t))
    (hreads : ∀ t, ∀ o ∈ (make t).operands, Has os o) :
    Sound N T L L os (define make) fun v => [v] := by
  refine of_calm fun D S A s v s' hrun hready => ?_
  obtain ⟨rfl, rfl⟩ := define_eq_ok.mp hrun
  have hlater := Later.freshTemp S A s
  have hinv := hready.inv.freshTemp.straight (hlabel s.temps) (htarget s.temps) (hends s.temps)
    (fun o ho => ((hreads s.temps o ho).usable hready.usable).later hlater)
    (fun t ht => by rw [hdst] at ht; cases ht; exact Nat.lt_succ_self _) (hnames s.temps)
  refine ⟨S, _, hinv, ⟨hlater.trans (.emit _ _ Set.subset_union_right), rfl⟩, ?_⟩
  intro o ho
  obtain rfl := List.mem_singleton.mp ho
  exact ⟨.inl (hdst s.temps), Nat.lt_succ_self _⟩

/-- A jump or a branch to a target. -/
theorem jump {i : Inst} {l : Label} (htarget : i.target? = some l) (hl : l ∈ T)
    (hreads : ∀ o ∈ i.operands, Has os o) : Sound N T L L os (Lowering.emit i) fun _ => [] := by
  refine of_calm fun D S A s u s' hrun hready => ?_
  obtain ⟨hD, hS⟩ := hready.targets l hl
  obtain ⟨A', hinv, hcalm⟩ := hready.inv.goto hrun htarget (.inr hD) hS
    fun o ho => (hreads o ho).usable hready.usable
  exact ⟨S, A', hinv, hcalm, nofun⟩

theorem ret {value : Option Operand} (hreads : ∀ o ∈ value, Has os o) :
    Sound N T L L os (Lowering.emit (.ret value)) fun _ => [] := by
  refine of_calm fun D S A s u s' hrun hready => ?_
  obtain rfl := emit_eq_ok.mp hrun
  exact ⟨S, _, hready.inv.ret fun o ho => (hreads o ho).usable hready.usable,
    ⟨.emit s _ (Set.subset_univ _), rfl⟩, nofun⟩

theorem inScope (h : Sound N T ([] :: L) L' os act res) (hL : L'.tail = L) :
    Sound N T L L os (inScope act) res := by
  intro D S A s a s' hrun hready
  obtain ⟨t, hact, rfl⟩ := inScope_eq_ok.mp hrun
  have hpush := Later.slots S A s ([] :: s.slots)
  have hbound : Bound ([] :: L) A { s with slots := [] :: s.slots } := by
    refine ⟨by rw [← hready.bound.names]; rfl, ?_⟩
    intro scope hscope x hx
    rcases List.mem_cons.mp hscope with rfl | hscope
    · cases hx
    · exact hready.bound.usable scope hscope x hx
  obtain ⟨S', A', hready', hlater⟩ := h hact ⟨hready.inv.slots _, hready.targets, hbound,
    Usable.all_later hready.usable hpush⟩
  have hpop := Later.slots S' A' t t.slots.tail
  refine ⟨S', A', ⟨hready'.inv.slots _, hready'.targets, ⟨?_, ?_⟩,
    Usable.all_later hready'.usable hpop⟩, (hpush.trans hlater).trans hpop⟩
  · rw [← hL, ← hready'.bound.names, List.map_tail]
  · exact fun scope hscope => hready'.bound.usable scope (List.mem_of_mem_tail hscope)

theorem bindName (name : String) {slot : Temp} (h : Has os (.temp slot)) :
    Sound N T L (L.declare name) os (Lowering.bind name slot) fun _ => [] := by
  intro D S A s u s' hrun hready
  cases hrun
  refine ⟨S, A, ⟨hready.inv.slots _, hready.targets, ?_,
    Usable.all_later hready.usable (Later.slots S A s _)⟩, Later.slots S A s _⟩
  obtain ⟨hnames, husable⟩ := hready.bound
  cases hslots : s.slots with
  | nil =>
    rw [hslots] at hnames
    subst hnames
    exact ⟨rfl, nofun⟩
  | cons scope outer =>
    rw [hslots] at hnames husable
    subst hnames
    refine ⟨rfl, ?_⟩
    intro scope' hscope x hx
    rcases List.mem_cons.mp hscope with rfl | hscope
    · rcases List.mem_cons.mp hx with rfl | hx
      · exact h.usable hready.usable
      · exact husable scope (List.mem_cons_self ..) x hx
    · exact husable scope' (List.mem_cons_of_mem _ hscope) x hx

end Sound

theorem mem_of_slot? {slots : Slots} {name : String} {t : Temp} (h : slot? slots name = some t) :
    ∃ scope ∈ slots, (name, t) ∈ scope := by
  obtain ⟨scope, hscope, hlookup⟩ := List.exists_of_findSome?_eq_some h
  obtain ⟨before, rest, rfl, -⟩ := List.lookup_eq_some_iff.mp hlookup
  exact ⟨_, hscope, List.mem_append_right _ (List.mem_cons_self ..)⟩

theorem not_mem_of_slot?_eq_none {slots : Slots} {name : String} (h : slot? slots name = none)
    {scope : List (String × Temp)} (hscope : scope ∈ slots) : name ∉ scope.map Prod.fst := by
  have hlookup : scope.lookup name = none := List.findSome?_eq_none_iff.mp h scope hscope
  intro hmem
  obtain ⟨x, hx, rfl⟩ := List.mem_map.mp hmem
  have := List.lookup_eq_none_iff.mp hlookup x hx
  simp at this

/-- A name is looked up among the locals first, as its meaning was. -/
theorem sound_variableAddress {name : String}
    (h : (∃ scope ∈ L, name ∈ scope) ∨ N.globals name) :
    Sound N T L L os (variableAddress name) fun v => [v] := by
  intro D S A s v s' hrun hready
  obtain ⟨_, _, hget, hrun⟩ := bind_eq_ok.mp hrun
  cases hget
  cases hslot : slot? s.slots name with
  | some slot =>
    simp only [hslot] at hrun
    obtain ⟨rfl, rfl⟩ := pure_eq_ok.mp hrun
    obtain ⟨scope, hscope, hmem⟩ := mem_of_slot? hslot
    exact ⟨S, A, hready.adds (hready.bound.usable scope hscope _ hmem), Later.refl S A s⟩
  | none =>
    simp only [hslot] at hrun
    have hglobal : N.globals name := by
      rcases h with ⟨scope, hscope, hname⟩ | h
      · rw [← hready.bound.names] at hscope
        obtain ⟨scope', hscope', rfl⟩ := List.mem_map.mp hscope
        exact absurd hname (not_mem_of_slot?_eq_none hslot hscope')
      · exact h
    have hdefine : Sound N T L L os (define (.addressOf · name)) fun v => [v] :=
      .define (fun _ => rfl) (fun _ => rfl) (fun _ => rfl) (fun _ => rfl) (fun _ => hglobal)
        (fun _ => nofun)
    exact hdefine hrun hready

end Basics

/-! Arithmetic and places. -/

section Parts

variable {N : Names} {T : Set Label} {L : Locals} {os : List Operand} (r : Registry)
  {v left right : Operand} {p dst src : Place}

theorem sound_convert (hv : Has os v) (ty : TypeId) :
    Sound N T L L os (convert r v ty) fun w => [w] := by
  have hself {o : Operand} (h : Has os o) : ∀ o' ∈ [o], Has os o' := by
    simpa using h
  unfold convert
  split
  · exact .give hv rfl
  · split
    · exact .give hv rfl
    · split
      · exact .give (has_const os _) rfl
      · exact .define (fun _ => rfl) (fun _ => rfl) (fun _ => rfl) (fun _ => rfl) (fun _ => trivial)
          fun _ => hself hv

theorem sound_binary (op : Code.BinaryOp) (hl : Has os left) (hr : Has os right) :
    Sound N T L L os (define (.binary · op left right)) fun w => [w] :=
  .define (fun _ => rfl) (fun _ => rfl) (fun _ => rfl) (fun _ => rfl) (fun _ => trivial)
    fun _ => by simpa [Inst.operands] using ⟨hl, hr⟩

theorem sound_unary (op : Code.UnaryOp) (hv : Has os v) :
    Sound N T L L os (define (.unary · op v)) fun w => [w] :=
  .define (fun _ => rfl) (fun _ => rfl) (fun _ => rfl) (fun _ => rfl) (fun _ => trivial)
    fun _ => by simpa [Inst.operands] using hv

theorem sound_scale (hv : Has os v) (stride : Int64) :
    Sound N T L L os (scale v stride) fun w => [w] := by
  unfold scale
  split
  · exact .give hv rfl
  · split
    · exact .give (has_const os _) rfl
    · exact sound_binary _ hv (has_const os _)

theorem sound_pointerDifference (hl : Has os left) (hr : Has os right) (stride : Int64) :
    Sound N T L L os (pointerDifference left right stride) fun w => [w] :=
  (sound_binary _ hl hr).bind fun _ =>
    .ite (sound_binary _ (has_self _ _) (has_const _ _)) (.give (has_self _ _) rfl)

theorem sound_integerArithmetic (op : BinaryOp) (hl : Has os left) (hr : Has os right)
    (leftTy rightTy result : TypeId) :
    Sound N T L L os (integerArithmetic r op left leftTy right rightTy result) fun w => [w] :=
  .ite (sound_binary _ hl hr) ((sound_binary _ hl hr).bind fun _ => sound_convert r (has_self _ _) _)

theorem sound_arithmetic (op : BinaryOp) (hl : Has os left) (hr : Has os right)
    (leftTy rightTy result : TypeId) :
    Sound N T L L os (arithmetic r op left leftTy right rightTy result) fun w => [w] := by
  fun_cases arithmetic r op left leftTy right rightTy result
  · exact (sound_scale hr _).bind fun _ => sound_binary _ (hl.append _) (has_self _ _)
  · exact (sound_scale hr _).bind fun _ => sound_binary _ (hl.append _) (has_self _ _)
  · exact (sound_scale hl _).bind fun _ => sound_binary _ (hr.append _) (has_self _ _)
  · exact sound_pointerDifference hl hr _
  · exact sound_integerArithmetic r op hl hr _ _ _

theorem sound_address (hp : Has os p.base) : Sound N T L L os p.address fun w => [w] := by
  unfold Place.address
  split
  · exact .give hp rfl
  · split
    · exact .give (has_const os _) rfl
    · exact sound_binary _ hp (has_const os _)

theorem sound_define_load (hv : Has os v) (offset : Int64) (access : Access) :
    Sound N T L L os (define (.load · v offset access)) fun w => [w] :=
  .define (fun _ => rfl) (fun _ => rfl) (fun _ => rfl) (fun _ => rfl) (fun _ => trivial)
    fun _ => by simpa [Inst.operands] using hv

theorem sound_emit_store (hb : Has os left) (hv : Has os v) (offset : Int64) (size : Nat) :
    Sound N T L L os (emit (.store left offset v size)) fun _ => [] :=
  .emit rfl rfl rfl rfl trivial (by simpa [Inst.operands] using ⟨hb, hv⟩)

theorem sound_load (hp : Has os p.base) : Sound N T L L os (p.load r) fun w => [w] := by
  unfold Place.load
  split
  · exact sound_address hp
  · split
    · exact sound_define_load hp _ _
    · exact .give (has_const os _) rfl

theorem sound_store (hp : Has os p.base) (hv : Has os v) :
    Sound N T L L os (p.store r v) fun _ => [] :=
  (Sound.need _ _).bind fun _ => sound_emit_store hp hv _ _

theorem sound_copyMoves (hd : Has os dst.base) (hs : Has os src.base) (ms : List ScalarMove) :
    Sound N T L L os (Place.copyMoves dst src ms) fun _ => [] := by
  induction ms generalizing os with
  | nil => exact .pure nofun
  | cons m ms ih =>
    exact (sound_define_load hs _ _).bind fun _ =>
      (sound_emit_store (hd.append _) (has_self _ _) _ _).bind fun _ =>
        ih ((hd.append _).append _) ((hs.append _).append _)

theorem sound_copy (hd : Has os dst.base) (hs : Has os src.base) :
    Sound N T L L os (Place.copy r dst src) fun _ => [] :=
  sound_copyMoves hd hs _

theorem sound_zeroMoves (hp : Has os p.base) (ms : List ScalarMove) :
    Sound N T L L os (Place.zeroMoves p ms) fun _ => [] := by
  induction ms generalizing os with
  | nil => exact .pure nofun
  | cons m ms ih =>
    exact (sound_emit_store hp (has_const _ _) _ _).bind fun _ => ih (hp.append _)

theorem sound_zero (hp : Has os p.base) : Sound N T L L os (p.zero r) fun _ => [] :=
  sound_zeroMoves hp _

theorem sound_storeBytes (hp : Has os p.base) (bs : List UInt8) :
    Sound N T L L os (p.storeBytes bs) fun _ => [] := by
  induction bs generalizing os p with
  | nil => exact .pure nofun
  | cons b bs ih =>
    refine (sound_emit_store hp (has_const _ _) _ _).bind fun _ => ih ?_
    exact hp.append _

theorem sound_allocate (ty : TypeId) :
    Sound N T L L os (allocate r ty) fun t => [.temp t] := by
  intro D S A s t s' hrun hready
  obtain ⟨_, s₁, hfresh, hrun⟩ := bind_eq_ok.mp hrun
  cases hfresh
  obtain ⟨_, s₂, hemit, hrun⟩ := bind_eq_ok.mp hrun
  obtain ⟨rfl, rfl⟩ := pure_eq_ok.mp hrun
  have hdefine : Sound N T L L os (define (.alloca · (r.sizeOf ty) (r.alignOf ty))) fun v => [v] :=
    .define (fun _ => rfl) (fun _ => rfl) (fun _ => rfl) (fun _ => rfl) (fun _ => trivial)
      fun _ => nofun
  exact hdefine (define_eq_ok.mpr ⟨rfl, emit_eq_ok.mp hemit⟩) hready

end Parts

end MiniC.Lowering
