import MiniC.Proofs.Lowering.Growth
import MiniC.Proofs.Typing.Stability
/-!
Actions that give a result in every state. Main statements: such actions follow one another, places
are loaded and copied without failure, and only a store asks anything of a type: that it is a
scalar.
-/
namespace MiniC

/-- A scalar is moved by one load or store. -/
theorem Registry.isSome_access {r : Registry} {t : TypeId} (h : r.isScalar t = true) :
    (r.access? t).isSome = true := by
  unfold isScalar isInteger isPointer at h
  unfold access?
  cases hty : r.ty t <;> simp [hty] at h ⊢

end MiniC

namespace MiniC.Lowering

open Code (Inst Label Operand Temp)
open Syntax

/-- Whatever the state, the action gives a result, and the result has the property. -/
def Completes (act : Lower α) (P : α → Prop) : Prop := ∀ s, ∃ a s', act s = .ok (a, s') ∧ P a

abbrev Always (act : Lower α) : Prop := Completes act fun _ => True

namespace Completes

variable {α β : Type} {act : Lower α} {P : α → Prop} {Q : β → Prop}

theorem pure {a : α} (h : P a) : Completes (Pure.pure a) P := fun s => ⟨a, s, rfl, h⟩

theorem bind {k : α → Lower β} (h : Completes act P) (hk : ∀ a, P a → Completes (k a) Q) :
    Completes (act >>= k) Q := by
  intro s
  obtain ⟨a, s₁, ha, hP⟩ := h s
  obtain ⟨b, s₂, hb, hQ⟩ := hk a hP s₁
  exact ⟨b, s₂, bind_eq_ok.mpr ⟨a, s₁, ha, hb⟩, hQ⟩

theorem map {f : α → β} (h : Completes act P) (hf : ∀ a, P a → Q (f a)) : Completes (f <$> act) Q := by
  intro s
  obtain ⟨a, s', ha, hP⟩ := h s
  exact ⟨f a, s', map_eq_ok.mpr ⟨a, ha, rfl⟩, hf a hP⟩

theorem of_map {f : α → β} (h : Always (f <$> act)) : Always act := by
  intro s
  obtain ⟨b, s', hb, -⟩ := h s
  obtain ⟨a, ha, -⟩ := map_eq_ok.mp hb
  exact ⟨a, s', ha, trivial⟩

theorem mono {P' : α → Prop} (h : Completes act P) (hP : ∀ a, P a → P' a) : Completes act P' := by
  intro s
  obtain ⟨a, s', ha, hPa⟩ := h s
  exact ⟨a, s', ha, hP a hPa⟩

theorem always (h : Completes act P) : Always act := h.mono fun _ _ => trivial

theorem ite {c : Prop} [Decidable c] {act' : Lower α} (h : c → Completes act P)
    (h' : ¬ c → Completes act' P) : Completes (if c then act else act') P := by
  split
  · exact h ‹_›
  · exact h' ‹_›

theorem need {e : LoweringError} {o : Option α} {a : α} (ho : o = some a) (h : P a) :
    Completes (need e o) P := by
  subst ho
  exact pure h

theorem modify {f : State → State} {P : PUnit → Prop} (h : P ⟨⟩) : Completes (modify f) P :=
  fun s => ⟨⟨⟩, f s, rfl, h⟩

theorem get_bind {k : State → Lower β} (hk : ∀ s, Completes (k s) Q) : Completes (get >>= k) Q :=
  fun s => hk s s

end Completes

section Basics

variable {α : Type} {act : Lower α}

theorem always_emit (i : Inst) : Always (emit i) := fun _ => ⟨(), _, rfl, trivial⟩

theorem always_freshTemp : Always freshTemp := fun _ => ⟨_, _, rfl, trivial⟩

theorem always_freshLabel (kind : String) : Always (freshLabel kind) := fun _ => ⟨_, _, rfl, trivial⟩

theorem always_addText (text : String) : Always (addText text) := fun _ => ⟨_, _, rfl, trivial⟩

theorem always_bind (name : String) (slot : Temp) : Always (Lowering.bind name slot) :=
  fun _ => ⟨(), _, rfl, trivial⟩

theorem always_define (make : Temp → Inst) : Always (define make) :=
  always_freshTemp.bind fun _ _ => (always_emit _).bind fun _ _ => .pure trivial

theorem always_variableAddress (name : String) : Always (variableAddress name) := by
  refine .get_bind fun s => ?_
  split
  · exact .pure trivial
  · exact always_define _

theorem Completes.inScope {P : α → Prop} (h : Completes act P) : Completes (inScope act) P :=
  .bind (P := fun _ => True) (.modify trivial) fun _ _ => h.bind fun _ ha =>
    .bind (P := fun _ => True) (.modify trivial) fun _ _ => .pure ha

end Basics

/-! Arithmetic and places. -/

section Places

variable (r : Registry)

theorem always_convert (v : Operand) (t : TypeId) : Always (convert r v t) := by
  unfold convert
  split
  · exact .pure trivial
  · refine .ite (fun _ => .pure trivial) fun _ => ?_
    split
    · exact .pure trivial
    · exact always_define _

theorem always_scale (v : Operand) (stride : Int64) : Always (scale v stride) := by
  refine .ite (fun _ => .pure trivial) fun _ => ?_
  split
  · exact .pure trivial
  · exact always_define _

theorem always_pointerDifference (left right : Operand) (stride : Int64) :
    Always (pointerDifference left right stride) :=
  (always_define _).bind fun _ _ => .ite (fun _ => always_define _) fun _ => .pure trivial

theorem always_integerArithmetic (op : BinaryOp) (left : Operand) (leftTy : TypeId) (right : Operand)
    (rightTy result : TypeId) :
    Always (integerArithmetic r op left leftTy right rightTy result) :=
  .ite (fun _ => always_define _) fun _ => (always_define _).bind fun _ _ => always_convert r _ _

theorem always_arithmetic (op : BinaryOp) (left : Operand) (leftTy : TypeId) (right : Operand)
    (rightTy result : TypeId) : Always (arithmetic r op left leftTy right rightTy result) := by
  unfold arithmetic
  split
  · exact (always_scale _ _).bind fun _ _ => always_define _
  · exact (always_scale _ _).bind fun _ _ => always_define _
  · exact (always_scale _ _).bind fun _ _ => always_define _
  · exact always_pointerDifference _ _ _
  · exact always_integerArithmetic r _ _ _ _ _ _

theorem always_address (p : Place) : Always p.address := by
  refine .ite (fun _ => .pure trivial) fun _ => ?_
  split
  · exact .pure trivial
  · exact always_define _

theorem always_load (p : Place) : Always (p.load r) := by
  refine .ite (fun _ => always_address p) fun _ => ?_
  split
  · exact always_define _
  · exact .pure trivial

/-- Only a scalar is stored. -/
theorem always_store {r : Registry} {p : Place} (h : r.isScalar p.ty = true) (v : Operand) :
    Always (p.store r v) := by
  obtain ⟨access, haccess⟩ := Option.isSome_iff_exists.mp (Registry.isSome_access h)
  exact .bind (P := fun _ => True) (.need haccess trivial) fun _ _ => always_emit _

theorem always_copyMoves (dst src : Place) (ms : List ScalarMove) :
    Always (Place.copyMoves dst src ms) := by
  induction ms with
  | nil => exact .pure trivial
  | cons m ms ih => exact (always_define _).bind fun _ _ => (always_emit _).bind fun _ _ => ih

theorem always_zeroMoves (p : Place) (ms : List ScalarMove) : Always (Place.zeroMoves p ms) := by
  induction ms with
  | nil => exact .pure trivial
  | cons m ms ih => exact (always_emit _).bind fun _ _ => ih

theorem always_storeBytes (p : Place) (bs : List UInt8) : Always (p.storeBytes bs) := by
  induction bs generalizing p with
  | nil => exact .pure trivial
  | cons b bs ih => exact (always_emit _).bind fun _ _ => ih _

theorem always_allocate (t : TypeId) : Always (allocate r t) :=
  always_freshTemp.bind fun _ _ => (always_emit _).bind fun _ _ => .pure trivial

end Places

/-! Operands of expressions. -/

section Operands

variable {r : Registry} {t : TypeId} {code : Lower Lowered} {source : Lower Operand}
  {target : Lower Place}

/-- An expression that stands for an object becomes the place of one. -/
def Locates (e : Expr) (t : TypeId) (l : Lowered) : Prop :=
  Typing.isLvalue e = true → ∃ p, l = .place p ∧ p.ty = t

theorem Locates.value {e : Expr} {l : Lowered} (h : Typing.isLvalue e = false) : Locates e t l :=
  fun he => by rw [h] at he; cases he

theorem always_valueOf (h : Always code) : Always (valueOf r code) := by
  refine h.bind fun l _ => ?_
  cases l with
  | place p => exact always_load r p
  | value v => exact .pure trivial

theorem completes_placeOf {e : Expr} (h : Completes code (Locates e t))
    (he : Typing.isLvalue e = true) : Completes (placeOf e code) fun p => p.ty = t := by
  refine h.bind fun l hl => ?_
  obtain ⟨p, rfl, hp⟩ := hl he
  exact .pure hp

theorem completes_storageOf (h : Always code) (offset : Int64) :
    Completes (storageOf code offset t) fun p => p.ty = t := by
  refine h.bind fun l _ => ?_
  cases l with
  | place p => exact .pure rfl
  | value v => exact .pure rfl

theorem always_typeOf {e : Expr} (h : e.ty = some t) : Always (typeOf e) := .need h trivial

theorem completes_subscript {element : Place} {index : Lower Operand} (stride : Int64)
    (constant : Option Int64) (h : Always index) :
    Completes (subscript element stride constant index) fun p => p.ty = element.ty := by
  unfold subscript
  split
  · exact .pure rfl
  · exact h.bind fun _ _ => (always_define _).bind fun _ _ => (always_define _).bind fun _ _ =>
      .pure rfl

theorem always_assignStruct (hs : Always source) (ht : Always target) :
    Always (assignStruct r t source target) :=
  hs.bind fun _ _ => ht.bind fun p _ => (always_copyMoves p _ _).bind fun _ _ => always_address p

theorem always_assignScalar (hs : Always source) (ht : Completes target fun p => p.ty = t)
    (hscalar : r.isScalar t = true) : Always (assignScalar r t source target) :=
  hs.bind fun _ _ => (always_convert r _ _).bind fun _ _ => ht.bind fun _ hp =>
    (always_store (hp ▸ hscalar) _).bind fun _ _ => .pure trivial

theorem always_assignCompound {op : BinaryOp} {e : Expr} {v : TypeId} (hs : Always source)
    (ht : Completes target fun p => p.ty = t) (hscalar : r.isScalar t = true) (he : e.ty = some v) :
    Always (assignCompound r op t e source target) :=
  ht.bind fun p hp => (always_load r p).bind fun _ _ => hs.bind fun _ _ => (always_typeOf he).bind
    fun _ _ => (always_arithmetic r op _ _ _ _ _).bind fun _ _ =>
      (always_store (hp ▸ hscalar) _).bind fun _ _ => .pure trivial

theorem always_step {decrement yieldsOld : Bool} (ht : Completes target fun p => p.ty = t)
    (hscalar : r.isScalar t = true) : Always (step r t decrement yieldsOld target) :=
  ht.bind fun p hp => (always_load r p).bind fun _ _ => (always_define _).bind fun _ _ =>
    (always_convert r _ _).bind fun _ _ => (always_store (hp ▸ hscalar) _).bind fun _ _ =>
      .pure trivial

theorem always_call {callee : Expr} {name : String} {args : Lower (List Operand)}
    (hcallee : callee.kind = .name name) (h : Always args) : Always (call r t callee args) := by
  unfold call
  rw [hcallee]
  exact h.bind fun _ _ => .ite (fun _ => (always_emit _).bind fun _ _ => .pure trivial)
    fun _ => always_define _

theorem always_cast (v : Operand) : Always (cast r t v) :=
  .ite (fun _ => .pure trivial) fun _ => always_convert r v t

end Operands

/-! Shapes of control. -/

section Shapes

variable {cond yes no left right : Lower Operand} {yesCode noCode update : Lower Unit}

theorem always_branchUnless (v : Operand) (target : Label) : Always (branchUnless v target) :=
  always_emit _

theorem always_ifOnly (hc : Always cond) (hy : Always yesCode) : Always (ifOnly cond yesCode) :=
  hc.bind fun _ _ => (always_freshLabel _).bind fun _ _ => (always_freshLabel _).bind fun _ _ =>
    (always_branchUnless _ _).bind fun _ _ => hy.bind fun _ _ => always_emit _

theorem always_ifElse (hc : Always cond) (hy : Always yesCode) (hn : Always noCode) :
    Always (ifElse cond yesCode noCode) :=
  hc.bind fun _ _ => (always_freshLabel _).bind fun _ _ => (always_freshLabel _).bind fun _ _ =>
    (always_branchUnless _ _).bind fun _ _ => hy.bind fun _ _ => (always_emit _).bind fun _ _ =>
      (always_emit _).bind fun _ _ => hn.bind fun _ _ => always_emit _

theorem always_loop {testsFirst : Bool} {test : Label → Lower Unit} {body : Label → Label → Lower Unit}
    (ht : ∀ stop, Always (test stop)) (hb : ∀ stop next, Always (body stop next))
    (hu : Always update) : Always (loop testsFirst test body update) := by
  refine (always_freshLabel _).bind fun _ _ => (always_freshLabel _).bind fun _ _ =>
    (always_freshLabel _).bind fun _ _ => (always_freshLabel _).bind fun _ _ => ?_
  have hrest (top entry next stop : Label) : Always (do
      emit (.label top)
      test stop
      emit (.label entry)
      body stop next
      emit (.label next)
      update
      emit (.jump top)
      emit (.label stop)) :=
    (always_emit _).bind fun _ _ => (ht _).bind fun _ _ => (always_emit _).bind fun _ _ =>
      (hb _ _).bind fun _ _ => (always_emit _).bind fun _ _ => hu.bind fun _ _ =>
        (always_emit _).bind fun _ _ => always_emit _
  exact .ite (fun _ => (always_emit _).bind fun _ _ => hrest _ _ _ _) fun _ => hrest _ _ _ _

theorem always_conditional (hc : Always cond) (hy : Always yes) (hn : Always no) :
    Always (conditional cond yes no) :=
  hc.bind fun _ _ => (always_freshLabel _).bind fun _ _ => (always_freshLabel _).bind fun _ _ =>
    always_freshTemp.bind fun _ _ => (always_branchUnless _ _).bind fun _ _ => hy.bind fun _ _ =>
      (always_emit _).bind fun _ _ => (always_emit _).bind fun _ _ => (always_emit _).bind fun _ _ =>
        hn.bind fun _ _ => (always_emit _).bind fun _ _ => (always_emit _).bind fun _ _ =>
          .pure trivial

theorem always_logical {isAnd : Bool} (hl : Always left) (hr : Always right) :
    Always (logical isAnd left right) :=
  always_freshTemp.bind fun _ _ => (always_freshLabel _).bind fun _ _ =>
    (always_freshLabel _).bind fun _ _ => hl.bind fun _ _ => (always_emit _).bind fun _ _ =>
      hr.bind fun _ _ => (always_define _).bind fun _ _ => (always_emit _).bind fun _ _ =>
        (always_emit _).bind fun _ _ => (always_emit _).bind fun _ _ =>
          (always_emit _).bind fun _ _ => (always_emit _).bind fun _ _ => .pure trivial

theorem always_leave (target : Option Label) : Always (leave target) := by
  cases target with
  | none => exact .pure trivial
  | some l => exact always_emit _

end Shapes

end MiniC.Lowering
