import MiniC.Proofs.Layout.Kinship
import MiniC.Typing.Rules
/-!
The typing rules on two registries. Main statements, one for each rule: for kin operands, in expressions
that are alike, it gives kin results or the same failure.
-/
namespace MiniC.Typing

open Registry (Akin Fork Kin KinMember KinStruct Pair widths)
open Syntax (BinaryOp Expr)

/-- Related results, or the same failure. -/
inductive Both {α β : Type} (Q : α → β → Prop) : Verdict α → Verdict β → Prop
  | ok {a b} : Q a b → Both Q (.ok a) (.ok b)
  | error (e : TypingError) : Both Q (.error e) (.error e)

namespace Both

variable {α β γ δ : Type} {Q : α → β → Prop} {v : Verdict α} {v' : Verdict β}

theorem map {R : γ → δ → Prop} {f : α → γ} {g : β → δ} (h : Both Q v v')
    (hfg : ∀ a b, Q a b → R (f a) (g b)) : Both R (v.map f) (v'.map g) := by
  cases h with
  | ok h => exact .ok (hfg _ _ h)
  | error e => exact .error e

theorem of_eq {w w' : Verdict α} (h : w = w') : Both Eq w w' := by
  subst h
  cases w with
  | ok a => exact .ok rfl
  | error e => exact .error e

end Both

/-- What the rules look at in an expression, apart from its type. -/
structure Alike (e e' : Expr) : Prop where
  span : e.span = e'.span
  lvalue : isLvalue e = isLvalue e'
  constant : e.constant? = e'.constant?

theorem Alike.isZero {e e' : Expr} (h : Alike e e') : isZero e = isZero e' := by
  rw [Typing.isZero, Typing.isZero, h.constant]

structure KinRef (F : Fork) (p : Pair) (m m' : MemberRef) : Prop where
  ty : Kin F p m.ty m'.ty
  offset : m.offset = m'.offset

variable {F : Fork} {p : Pair} {t t' u u' : TypeId} (hA : Akin F p)

section
include hA

theorem kin_void : Kin F p Registry.void Registry.void := .void hA.left.at_void hA.right.at_void

theorem kin_int {bytes : Nat} (signed : Bool) (hb : bytes ∈ widths) :
    Kin F p (Registry.int bytes signed) (Registry.int bytes signed) :=
  .int (hA.left.at_int hb) (hA.right.at_int hb)

theorem kin_cInt : Kin F p Registry.cInt Registry.cInt := kin_int hA true (by decide)

theorem kin_cChar : Kin F p Registry.cChar Registry.cChar := kin_int hA true (by decide)

theorem kin_cLong (signed : Bool) : Kin F p (p.left.cLong signed) (p.right.cLong signed) := by
  rw [Registry.cLong, Registry.cLong, hA.config]
  exact kin_int hA signed (by cases p.right.config.model <;> decide)

theorem kin_promote (h : Kin F p t t') : Kin F p (promote p.left t) (promote p.right t') := by
  cases h with
  | int k k' =>
    rw [promote, promote, k.2, k'.2]
    simp only
    split
    · exact kin_cInt hA
    · exact .int k k'
  | void k k' =>
    rw [promote, promote, k.2, k'.2]
    exact .void k k'
  | pointer k k' hu =>
    rw [promote, promote, k.2, k'.2]
    exact .pointer k k' hu
  | array k k' hu =>
    rw [promote, promote, k.2, k'.2]
    exact .array k k' hu
  | struct k k' hs =>
    rw [promote, promote, k.2, k'.2]
    exact .struct k k' hs

theorem kin_arithmeticType (h : Kin F p t t') (k : Kin F p u u') :
    Kin F p (arithmeticType p.left t u) (arithmeticType p.right t' u') := by
  have hl := kin_promote hA h
  have hr := kin_promote hA k
  unfold arithmeticType
  generalize promote p.left t = l at hl
  generalize promote p.right t' = l' at hl
  generalize promote p.left u = r at hr
  generalize promote p.right u' = r' at hr
  simp only
  cases hl with
  | @int _ _ b s hl hl' =>
    have hb : b ∈ widths := by
      have hbuilt := (hA.left.entry l hl.1).built
      rwa [hl.2] at hbuilt
    rw [hl.2, hl'.2]
    cases hr with
    | int hr hr' =>
      rw [hr.2, hr'.2]
      simp only
      split
      · exact .int hl hl'
      · split
        · exact .int hr hr'
        · exact kin_int hA _ hb
    | void hr hr' | pointer hr hr' | array hr hr' | struct hr hr' =>
      rw [hr.2, hr'.2]
      exact .int hl hl'
  | void hl hl' =>
    rw [hl.2, hl'.2]
    exact .void hl hl'
  | pointer hl hl' hu =>
    rw [hl.2, hl'.2]
    exact .pointer hl hl' hu
  | array hl hl' hu =>
    rw [hl.2, hl'.2]
    exact .array hl hl' hu
  | struct hl hl' hs =>
    rw [hl.2, hl'.2]
    exact .struct hl hl' hs

theorem invalidOperands_eq (h : Kin F p t t') (k : Kin F p u u') (span : Span) :
    invalidOperands p.left t u span = invalidOperands p.right t' u' span := by
  rw [invalidOperands, invalidOperands, h.display hA, k.display hA]

theorem checkStep_eq (h : Kin F p t t') (span : Span) :
    checkStep p.left t span = checkStep p.right t' span := by
  have hpointee := h.pointee?
  unfold checkStep
  revert hpointee
  generalize p.left.pointee? t = x
  generalize p.right.pointee? t' = x'
  rintro (hu | _)
  · simp only [hu.sizeOf hA, hu.display hA]
  · rfl

theorem both_pointerType (op : BinaryOp) (h : Kin F p t t') (k : Kin F p u u') (span : Span) :
    Both (Kin F p) (pointerType p.left op t u span) (pointerType p.right op t' u' span) := by
  have hl := Both.of_eq (checkStep_eq hA h span)
  have hr := Both.of_eq (checkStep_eq hA k span)
  unfold pointerType
  rw [h.isPointer, k.isPointer, invalidOperands_eq hA h k]
  split
  · exact hl.map fun _ _ _ => h
  · exact hr.map fun _ _ _ => k
  · exact hl.map fun _ _ _ => h
  · exact hl.map fun _ _ _ => kin_cLong hA true
  · exact .error _

theorem both_binaryType (op : BinaryOp) (h : Kin F p t t') (k : Kin F p u u') (span : Span) :
    Both (Kin F p) (binaryType p.left op t u span) (binaryType p.right op t' u' span) := by
  unfold binaryType
  rw [h.isScalar, k.isScalar, h.isPointer, k.isPointer, invalidOperands_eq hA h k]
  split
  · exact .error _
  · split
    · exact .ok (kin_cInt hA)
    · split
      · exact both_pointerType hA op h k span
      · split
        · exact .ok (kin_promote hA h)
        · exact .ok (kin_promote hA h)
        · exact .ok (kin_arithmeticType hA h k)

theorem both_conditionalType (h : Kin F p t t') (k : Kin F p u u') {yes yes' no no' : Expr}
    (hyes : Alike yes yes') (hno : Alike no no') (span : Span) :
    Both (Kin F p) (conditionalType p.left t u yes no span)
      (conditionalType p.right t' u' yes' no' span) := by
  unfold conditionalType
  rw [h.isInteger, k.isInteger, h.isPointer, k.isPointer, hyes.isZero, hno.isZero, h.display hA,
    k.display hA]
  simp only [h.eq_iff hA k]
  repeat' split
  · exact .ok (kin_arithmeticType hA h k)
  · exact .ok h
  · exact .ok h
  · exact .ok k
  · exact .ok h
  · exact .error _

theorem checkAssignable_eq (h : Kin F p t t') (k : Kin F p u u') {e e' : Expr} (he : Alike e e') :
    checkAssignable p.left t u e = checkAssignable p.right t' u' e' := by
  have hbeq : (t == u) = (t' == u') := by
    rw [Bool.eq_iff_iff, beq_iff_eq, beq_iff_eq]
    exact h.eq_iff hA k
  unfold checkAssignable isAssignable
  rw [hbeq, h.isInteger, k.isInteger, h.isPointer, k.isPointer, he.isZero, h.isStruct, k.isStruct,
    h.display hA, k.display hA, he.span]

theorem checkScalar_eq (h : Kin F p t t') (span : Span) :
    checkScalar p.left t span = checkScalar p.right t' span := by
  rw [checkScalar, checkScalar, h.isScalar, h.display hA]

theorem checkCondition_eq (h : Kin F p t t') (span : Span) :
    checkCondition p.left t span = checkCondition p.right t' span := by
  rw [checkCondition, checkCondition, h.isScalar, h.display hA]

theorem both_unaryType (op : Syntax.UnaryOp) (h : Kin F p t t') (operandSpan span : Span) :
    Both (Kin F p) (unaryType p.left op t operandSpan span) (unaryType p.right op t' operandSpan span) := by
  unfold unaryType
  rw [checkScalar_eq hA h, h.isInteger, h.display hA]
  have hscalar := Both.of_eq (rfl : checkScalar p.right t' operandSpan = _)
  split
  · exact hscalar.map fun _ _ _ => kin_cInt hA
  · split
    · exact .ok (kin_promote hA h)
    · exact .error _
  · split
    · exact .ok (kin_promote hA h)
    · exact .error _

theorem checkCompound_eq (op : BinaryOp) (h : Kin F p t t') (k : Kin F p u u') (span : Span) :
    checkCompound p.left op t u span = checkCompound p.right op t' u' span := by
  have hbinary : (binaryType p.left op t u span).map (fun _ => ()) =
      (binaryType p.right op t' u' span).map fun _ => () := by
    have h := both_binaryType hA op h k span
    revert h
    generalize binaryType p.left op t u span = v
    generalize binaryType p.right op t' u' span = v'
    rintro (_ | _) <;> rfl
  unfold checkCompound
  rw [h.isPointer, k.isInteger, h.isInteger, checkStep_eq hA h, invalidOperands_eq hA h k, hbinary]

theorem both_elementType (h : Kin F p t t') (span : Span) :
    Both (Kin F p) (elementType p.left t span) (elementType p.right t' span) := by
  have helement := h.element?
  unfold elementType
  rw [h.display hA]
  revert helement
  generalize p.left.element? t = x
  generalize p.right.element? t' = x'
  rintro (hu | _)
  · simp only [hu.isVoid]
    split
    · exact .error _
    · exact .ok hu
  · exact .error _

theorem both_memberOf (h : Kin F p t t') (field : String) (span : Span) :
    Both (KinRef F p) (memberOf p.left t field span) (memberOf p.right t' field span) := by
  have hstruct := h.asStruct? hA
  unfold memberOf Registry.member
  rw [h.display hA]
  revert hstruct
  generalize p.left.asStruct? t = x
  generalize p.right.asStruct? t' = x'
  rintro (@⟨s, s', hs⟩ | _)
  · have hfind : Option.Rel (KinMember F p) (s.members.find? (·.name == field))
        (s'.members.find? (·.name == field)) :=
      Registry.rel_find? hs.members fun x y hxy => by rw [hxy.name]
    simp only
    revert hfind
    generalize s.members.find? (·.name == field) = y
    generalize s'.members.find? (·.name == field) = y'
    rintro (hm | _)
    · exact .ok ⟨hm.ty, hm.offset⟩
    · exact .error _
  · exact .error _

theorem both_pointerMemberOf (h : Kin F p t t') (field : String) (span : Span) :
    Both (KinRef F p) (pointerMemberOf p.left t field span) (pointerMemberOf p.right t' field span) := by
  have hpointee := h.pointee?
  unfold pointerMemberOf
  rw [h.display hA, h.isStruct]
  revert hpointee
  generalize p.left.pointee? t = x
  generalize p.right.pointee? t' = x'
  rintro (hu | _)
  · exact both_memberOf hA hu field span
  · simp only
    split
    · exact .error _
    · exact .error _

theorem both_derefType (h : Kin F p t t') (span : Span) :
    Both (Kin F p) (derefType p.left t span) (derefType p.right t' span) := by
  have hpointee := h.pointee?
  unfold derefType
  rw [h.display hA]
  revert hpointee
  generalize p.left.pointee? t = x
  generalize p.right.pointee? t' = x'
  rintro (hu | _)
  · simp only [hu.isVoid]
    split
    · exact .error _
    · exact .ok hu
  · exact .error _

theorem both_checkCast (h : Kin F p t t') (k : Kin F p u u') (operandSpan span : Span) :
    Both (Kin F p) (checkCast p.left t u operandSpan span) (checkCast p.right t' u' operandSpan span) := by
  unfold checkCast
  rw [h.isVoid, h.isScalar, checkScalar_eq hA k, h.display hA]
  split
  · exact .ok h
  · split
    · exact (Both.of_eq (rfl : checkScalar p.right u' operandSpan = _)).map fun _ _ _ => h
    · exact .error _

theorem checkQuery_eq (q : Syntax.SizeQuery) (h : Kin F p t t') (span : Span) :
    checkQuery p.left q t span = checkQuery p.right q t' span := by
  unfold checkQuery
  rw [h.isVoid, h.sizeOf hA, h.alignOf hA]

end

end MiniC.Typing
