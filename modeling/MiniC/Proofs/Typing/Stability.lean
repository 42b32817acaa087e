import MiniC.Proofs.Layout.Leaves
import MiniC.Proofs.Typing.Judgement
/-!
Rules of typing in a registry that grows. Main statements: a rule that accepts types of a consistent
registry accepts them in every later one, with the same outcome, and what it gives is a type of the
registry.
-/
namespace MiniC

namespace Registry

variable {r r' : Registry} {t : TypeId}

/-- An id without a type reads as void. -/
theorem valid_of_ty (h : r.ty t ≠ .void) : r.Valid t := by
  by_cases ht : t.index < r.types.size
  · exact ht
  · exact absurd (ty_of_not_lt ht) h

theorem valid_of_isInteger (h : r.isInteger t = true) : r.Valid t :=
  valid_of_ty fun hty => by simp [isInteger, hty] at h

theorem valid_of_isPointer (h : r.isPointer t = true) : r.Valid t :=
  valid_of_ty fun hty => by simp [isPointer, hty] at h

theorem valid_of_isScalar (h : r.isScalar t = true) : r.Valid t := by
  rcases (Bool.or_eq_true _ _).mp h with h | h
  · exact valid_of_isInteger h
  · exact valid_of_isPointer h

theorem valid_of_isStruct (h : r.isStruct t = true) : r.Valid t :=
  valid_of_ty fun hty => by simp [isStruct, hty] at h

theorem Movable.valid (h : r.Movable t) : r.Valid t :=
  h.elim valid_of_isScalar valid_of_isStruct

theorem pointee_of_not_isPointer (h : r.isPointer t = false) : r.pointee? t = none := by
  unfold isPointer at h
  unfold pointee?
  cases hty : r.ty t with
  | pointer inner => rw [hty] at h; cases h
  | _ => rfl

theorem isVoid_of_isInteger (h : r.isInteger t = true) : r.isVoid t = false := by
  unfold isInteger at h
  unfold isVoid
  split at h
  · rename_i hty
    rw [hty]
  · cases h

theorem Movable.not_isVoid (h : r.Movable t) : r.isVoid t = false := by
  unfold isVoid
  simp only [Movable, isScalar, isInteger, isPointer, isStruct] at h
  cases hty : r.ty t with
  | void => simp [hty] at h
  | _ => rfl

/-- A type that is neither void nor an array is that of an object that a value is moved into. -/
theorem movable_of (hvoid : r.isVoid t = false) (harray : r.isArray t = false) : r.Movable t := by
  simp only [Movable, isScalar, isInteger, isPointer, isStruct]
  simp only [isVoid, isArray] at hvoid harray
  cases hty : r.ty t <;> simp [hty] at hvoid harray ⊢

namespace Within

variable (h : Within r r') (ht : r.Valid t)
include h ht

theorem valid : r'.Valid t := Nat.lt_of_lt_of_le ht h.size_le

theorem isInteger_eq : r'.isInteger t = r.isInteger t := by simp only [isInteger, h.ty_eq ht]
theorem isPointer_eq : r'.isPointer t = r.isPointer t := by simp only [isPointer, h.ty_eq ht]
theorem isArray_eq : r'.isArray t = r.isArray t := by simp only [isArray, h.ty_eq ht]
theorem isStruct_eq : r'.isStruct t = r.isStruct t := by simp only [isStruct, h.ty_eq ht]

theorem isScalar_eq : r'.isScalar t = r.isScalar t := by
  simp only [isScalar, h.isInteger_eq ht, h.isPointer_eq ht]

theorem pointee_eq : r'.pointee? t = r.pointee? t := by simp only [pointee?, h.ty_eq ht]
theorem element_eq : r'.element? t = r.element? t := by simp only [element?, h.ty_eq ht]
theorem sizeOf_eq : r'.sizeOf t = r.sizeOf t := congrArg Layout.Extent.size (h.extentOf_eq ht)

end Within

theorem Movable.within (hm : r.Movable t) (h : Within r r') : r'.Movable t := by
  simpa only [Movable, h.isScalar_eq hm.valid, h.isStruct_eq hm.valid] using hm

namespace Consistent

variable (h : r.Consistent)
include h

theorem valid_ref {i : TypeId} {ty : Ty} (hty : r.ty t = ty) (hi : i ∈ r.refs ty) : r.Valid i := by
  subst hty
  have ht : r.Valid t := valid_of_ty fun hvoid => by simp [hvoid, refs] at hi
  exact Nat.lt_trans ((h.entry t ht).older i hi) ht

theorem valid_pointee {i : TypeId} (hi : r.pointee? t = some i) : r.Valid i := by
  unfold pointee? at hi
  split at hi
  · rename_i hty
    cases hi
    exact h.valid_ref hty (List.mem_singleton_self _)
  · cases hi

theorem valid_element {i : TypeId} (hi : r.element? t = some i) : r.Valid i := by
  unfold element? at hi
  split at hi
  · rename_i hty
    cases hi
    exact h.valid_ref hty (List.mem_singleton_self _)
  · rename_i hty
    cases hi
    exact h.valid_ref hty (List.mem_singleton_self _)
  · cases hi

theorem valid_int {bytes : Nat} {signed : Bool} (hb : bytes ∈ widths) :
    r.Valid (int bytes signed) :=
  valid_of_ty (by simp [h.scalars.ty_int hb])

theorem valid_cLong (signed : Bool) : r.Valid (r.cLong signed) := by
  refine h.valid_int ?_
  cases r.config.model <;> decide

theorem isInteger_cLong (signed : Bool) : r.isInteger (r.cLong signed) = true := by
  have hb : r.config.model.longSize ∈ widths := by cases r.config.model <;> decide
  simp only [isInteger, cLong, h.scalars.ty_int hb]

theorem valid_void : r.Valid void :=
  Nat.lt_of_lt_of_le (Nat.zero_lt_succ 8) h.scalars.size_le

theorem ty_void : r.ty void = .void := h.scalars.ty_eq (Nat.zero_lt_succ 8)

/-- The types of members are types of the registry. -/
theorem valid_member {m : MemberRef} {field : String} (hm : r.member t field = .ok m) :
    r.Valid m.ty := by
  unfold member asStruct? at hm
  cases hty : r.ty t with
  | struct s =>
    simp only [hty] at hm
    split at hm
    · rename_i found hfound
      cases hm
      exact h.valid_ref hty (List.mem_map_of_mem (List.mem_of_find?_eq_some hfound))
    · cases hm
  | _ => simp only [hty] at hm; cases hm

end Consistent

/-- A member that is found is found later on as well. -/
theorem Grows.member_eq_ok {m : MemberRef} {field : String} (hg : Grows r r') (h : r.Consistent)
    (hm : r.member t field = .ok m) : r'.member t field = .ok m := by
  have ht : r.Valid t := by
    refine valid_of_ty fun hty => ?_
    simp only [member, asStruct?, hty] at hm
    cases hm
  unfold member at hm ⊢
  rw [h.asStruct_eq hg ht]
  cases hs : r.asStruct? t with
  | none => rw [hs] at hm; cases hm
  | some s =>
    simp only [hs] at hm ⊢
    split at hm
    · exact hm
    · cases hm

theorem Decays.within {t' : TypeId} (hd : r.Decays t t') (h : Within r r') (ht : r.Valid t) :
    r'.Decays t t' := by
  unfold Decays at hd ⊢
  rw [h.ty_eq ht]
  cases hty : r.ty t with
  | array element length =>
    simp only [hty] at hd ⊢
    rw [h.ty_eq (valid_of_ty (by simp [hd])), hd]
  | _ => simpa only [hty] using hd

theorem Decays.valid {t' : TypeId} (hd : r.Decays t t') (ht : r.Valid t) : r.Valid t' := by
  unfold Decays at hd
  split at hd
  · exact valid_of_ty (by simp [hd])
  · exact hd ▸ ht

end Registry

namespace Typing

open Registry (Grows Within)
open Syntax

variable {r r' : Registry} {t : TypeId}

/-- Verdicts that agree on what they accept. -/
def Concur {α : Type} (v v' : Verdict α) : Prop := v'.toOption = v.toOption

theorem Concur.ok {α : Type} {v v' : Verdict α} {a : α} (h : Concur v v') (hv : v = .ok a) :
    v' = .ok a := by
  subst hv
  cases v' with
  | error e => cases h
  | ok a' => exact congrArg _ (Option.some.inj h)

theorem Concur.map {α β : Type} {v v' : Verdict α} (f : α → β) (h : Concur v v') :
    Concur (v.map f) (v'.map f) := by
  cases v <;> cases v' <;> simp_all [Concur, Except.toOption, Except.map]

theorem map_eq_ok {α β : Type} {v : Verdict α} {f : α → β} {b : β} :
    v.map f = .ok b ↔ ∃ a, v = .ok a ∧ f a = b := by
  cases v <;> simp [Except.map]

/-! What the rules give. -/

theorem checkCast_eq_ok {operandSpan span : Span} {u v : TypeId}
    (h : checkCast r t u operandSpan span = .ok v) : v = t := by
  unfold checkCast at h
  split at h
  · cases h
    rfl
  · split at h
    · obtain ⟨-, -, rfl⟩ := map_eq_ok.mp h
      rfl
    · cases h

section
variable (hc : r.Consistent)
include hc

theorem valid_promote (ht : r.Valid t) : r.Valid (promote r t) := by
  unfold promote
  split
  · split
    · exact hc.valid_int (by decide)
    · exact ht
  · exact ht

theorem isInteger_promote (ht : r.isInteger t = true) : r.isInteger (promote r t) = true := by
  unfold promote
  split
  · split
    · have hint : r.ty Registry.cInt = .int 4 true := hc.scalars.ty_int (by decide)
      simp only [Registry.isInteger, hint]
    · exact ht
  · exact ht

/-- The width of an integer of the registry is one of four. -/
theorem mem_widths_of_ty {bytes : Nat} {signed : Bool} (hty : r.ty t = .int bytes signed) :
    bytes ∈ Registry.widths := by
  have ht : r.Valid t := Registry.valid_of_ty (by simp [hty])
  have hbuilt := (hc.entry t ht).built
  rwa [hty] at hbuilt

theorem isInteger_int {bytes : Nat} {signed : Bool} (hb : bytes ∈ Registry.widths) :
    r.isInteger (Registry.int bytes signed) = true := by
  simp only [Registry.isInteger, hc.scalars.ty_int hb]

theorem isInteger_integerType (n : Int64) : r.isInteger (integerType n) = true := by
  unfold integerType
  split
  · exact isInteger_int hc (by decide)
  · exact isInteger_int hc (by decide)

theorem isInteger_arithmeticType {u : TypeId} (ht : r.isInteger t = true)
    (hu : r.isInteger u = true) : r.isInteger (arithmeticType r t u) = true := by
  have hl := isInteger_promote hc ht
  have hr := isInteger_promote hc hu
  unfold arithmeticType
  dsimp only
  split
  · rename_i hlty hrty
    split
    · exact hl
    · split
      · exact hr
      · exact isInteger_int hc (mem_widths_of_ty hc hlty)
  · exact hl

theorem isInteger_unaryType {op : UnaryOp} {operandSpan span : Span} {u : TypeId}
    (h : unaryType r op t operandSpan span = .ok u) : r.isInteger u = true := by
  cases op with
  | not =>
    obtain ⟨-, -, rfl⟩ := map_eq_ok.mp h
    exact isInteger_int hc (by decide)
  | neg | bitNot =>
    simp only [unaryType] at h
    split at h
    · rename_i hint
      cases h
      exact isInteger_promote hc hint
    · cases h

theorem isScalar_pointerType {op : BinaryOp} {span : Span} {u v : TypeId}
    (h : pointerType r op t u span = .ok v) : r.isScalar v = true := by
  have hpointer {t : TypeId} (ht : r.isPointer t = true) : r.isScalar t = true := by
    simp [Registry.isScalar, ht]
  unfold pointerType at h
  split at h
  · obtain ⟨-, -, rfl⟩ := map_eq_ok.mp h
    exact hpointer ‹_›
  · obtain ⟨-, -, rfl⟩ := map_eq_ok.mp h
    exact hpointer ‹_›
  · obtain ⟨-, -, rfl⟩ := map_eq_ok.mp h
    exact hpointer ‹_›
  · obtain ⟨-, -, rfl⟩ := map_eq_ok.mp h
    simp [Registry.isScalar, hc.isInteger_cLong]
  · cases h

theorem isScalar_binaryType {op : BinaryOp} {span : Span} {u v : TypeId}
    (h : binaryType r op t u span = .ok v) : r.isScalar v = true := by
  have hinteger {t : TypeId} (ht : r.isInteger t = true) : r.isScalar t = true := by
    simp [Registry.isScalar, ht]
  unfold binaryType at h
  split at h
  · cases h
  · rename_i hscalars
    split at h
    · cases h
      exact hinteger (isInteger_int hc (by decide))
    · split at h
      · exact isScalar_pointerType hc h
      · rename_i hpointers
        simp only [Bool.or_eq_true, Bool.not_eq_true', not_or, Registry.isScalar,
          Bool.or_eq_false_iff, not_and, Bool.not_eq_false, Bool.not_eq_true] at hscalars hpointers
        have ht : r.isInteger t = true := by
          cases hint : r.isInteger t with
          | true => rfl
          | false => exact absurd (hscalars.1 hint) (by simp [hpointers.1])
        have hu : r.isInteger u = true := by
          cases hint : r.isInteger u with
          | true => rfl
          | false => exact absurd (hscalars.2 hint) (by simp [hpointers.2])
        split at h
        · cases h; exact hinteger (isInteger_promote hc ht)
        · cases h; exact hinteger (isInteger_promote hc ht)
        · cases h; exact hinteger (isInteger_arithmeticType hc ht hu)

theorem valid_conditionalType {yes no : Expr} {span : Span} {u v : TypeId} (ht : r.Valid t)
    (hu : r.Valid u) (h : conditionalType r t u yes no span = .ok v) : r.Valid v := by
  unfold conditionalType at h
  split at h
  · rename_i hints
    obtain ⟨hintt, hintu⟩ := (Bool.and_eq_true _ _).mp hints
    cases h
    exact Registry.valid_of_isInteger (isInteger_arithmeticType hc hintt hintu)
  · repeat' split at h
    all_goals cases h
    all_goals assumption

theorem valid_elementType {span : Span} {u : TypeId} (h : elementType r t span = .ok u) :
    r.Valid u ∧ r.isVoid u = false := by
  unfold elementType at h
  split at h
  · rename_i element helement
    split at h
    · cases h
    · rename_i hvoid
      cases h
      exact ⟨hc.valid_element helement, by simpa using hvoid⟩
  · cases h

theorem valid_derefType {span : Span} {u : TypeId} (h : derefType r t span = .ok u) :
    r.Valid u ∧ r.isVoid u = false := by
  unfold derefType at h
  split at h
  · rename_i target htarget
    split at h
    · cases h
    · rename_i hvoid
      cases h
      exact ⟨hc.valid_pointee htarget, by simpa using hvoid⟩
  · cases h

end

/-! Rules in later registries. -/

section
variable (hg : Grows r r') (hc : r.Consistent)

section
include hg

theorem promote_later (ht : r.Valid t) : promote r' t = promote r t := by
  simp only [promote, hg.ty_eq ht]

theorem unaryType_later (op : UnaryOp) (ht : r.Valid t) (operandSpan span : Span) :
    Concur (unaryType r op t operandSpan span) (unaryType r' op t operandSpan span) := by
  cases op with
  | not =>
    refine Concur.map _ ?_
    simp only [Concur, checkScalar, hg.isScalar_eq ht]
    split <;> rfl
  | neg | bitNot =>
    simp only [Concur, unaryType, hg.isInteger_eq ht, promote_later hg ht]
    split <;> rfl

theorem isAssignable_later {u : TypeId} (e : Expr) (ht : r.Valid t) (hu : r.Valid u) :
    isAssignable r' t u e = isAssignable r t u e := by
  simp only [isAssignable, hg.isInteger_eq ht, hg.isInteger_eq hu, hg.isPointer_eq ht,
    hg.isPointer_eq hu]

theorem checkCast_later {u : TypeId} (ht : r.Valid t) (hu : r.Valid u) (operandSpan span : Span) :
    Concur (checkCast r t u operandSpan span) (checkCast r' t u operandSpan span) := by
  simp only [checkCast, hg.isVoid_eq ht, hg.isScalar_eq ht]
  split
  · rfl
  · split
    · refine Concur.map _ ?_
      simp only [Concur, checkScalar, hg.isScalar_eq hu]
      split <;> rfl
    · rfl

end

include hg hc

theorem arithmeticType_later {u : TypeId} (ht : r.Valid t) (hu : r.Valid u) :
    arithmeticType r' t u = arithmeticType r t u := by
  simp only [arithmeticType, promote_later hg ht, promote_later hg hu,
    hg.ty_eq (valid_promote hc ht), hg.ty_eq (valid_promote hc hu)]

theorem checkStep_later (ht : r.Valid t) (span : Span) :
    Concur (checkStep r t span) (checkStep r' t span) := by
  simp only [Concur, checkStep, hg.pointee_eq ht]
  cases hp : r.pointee? t with
  | none => rfl
  | some target =>
    simp only [hg.sizeOf_eq (hc.valid_pointee hp)]
    by_cases hzero : r.sizeOf target = 0
    · simp only [if_pos hzero]
      rfl
    · simp only [if_neg hzero]

theorem pointerType_later {u : TypeId} (op : BinaryOp) (ht : r.Valid t) (hu : r.Valid u)
    (span : Span) : Concur (pointerType r op t u span) (pointerType r' op t u span) := by
  have hlong : r'.cLong true = r.cLong true := by simp only [Registry.cLong, hg.config]
  simp only [pointerType, hg.isPointer_eq ht, hg.isPointer_eq hu, hlong]
  split
  · exact (checkStep_later hg hc ht span).map _
  · exact (checkStep_later hg hc hu span).map _
  · exact (checkStep_later hg hc ht span).map _
  · exact (checkStep_later hg hc ht span).map _
  · rfl

theorem binaryType_later {u : TypeId} (op : BinaryOp) (ht : r.Valid t) (hu : r.Valid u)
    (span : Span) : Concur (binaryType r op t u span) (binaryType r' op t u span) := by
  simp only [binaryType, hg.isScalar_eq ht, hg.isScalar_eq hu, hg.isPointer_eq ht,
    hg.isPointer_eq hu, promote_later hg ht, arithmeticType_later hg hc ht hu]
  split
  · rfl
  · split
    · rfl
    · split
      · exact pointerType_later hg hc op ht hu span
      · rfl

theorem conditionalType_later {u : TypeId} (yes no : Expr) (ht : r.Valid t) (hu : r.Valid u)
    (span : Span) :
    Concur (conditionalType r t u yes no span) (conditionalType r' t u yes no span) := by
  simp only [Concur, conditionalType, hg.isInteger_eq ht, hg.isInteger_eq hu, hg.isPointer_eq ht,
    hg.isPointer_eq hu, arithmeticType_later hg hc ht hu]
  repeat' split
  all_goals rfl

theorem checkCompound_later {u : TypeId} (op : BinaryOp) (ht : r.Valid t) (hu : r.Valid u)
    (span : Span) : Concur (checkCompound r op t u span) (checkCompound r' op t u span) := by
  simp only [checkCompound, hg.isPointer_eq ht, hg.isInteger_eq ht, hg.isInteger_eq hu]
  split
  · split
    · exact checkStep_later hg hc ht span
    · rfl
  · split
    · exact (binaryType_later hg hc op ht hu span).map _
    · rfl

theorem elementType_later (ht : r.Valid t) (span : Span) :
    Concur (elementType r t span) (elementType r' t span) := by
  simp only [Concur, elementType, hg.element_eq ht]
  cases he : r.element? t with
  | none => rfl
  | some element =>
    simp only [hg.isVoid_eq (hc.valid_element he)]

theorem derefType_later (ht : r.Valid t) (span : Span) :
    Concur (derefType r t span) (derefType r' t span) := by
  simp only [Concur, derefType, hg.pointee_eq ht]
  cases hp : r.pointee? t with
  | none => rfl
  | some target =>
    simp only [hg.isVoid_eq (hc.valid_pointee hp)]

end

end Typing
end MiniC
