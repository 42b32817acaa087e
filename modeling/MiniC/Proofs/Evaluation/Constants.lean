import MiniC.Proofs.Evaluation.Address
import MiniC.Proofs.Evaluation.Conversions
import MiniC.Proofs.Typing.Stability
import MiniC.Proofs.Typing.Judgement
import MiniC.Syntax.Constant
/-!
Constant expressions at run time. A constant is folded without regard to types, in words with a sign;
evaluation applies every operator at the types of the tree. Main statement: where no unsigned division
has a negative operand, evaluation comes to the folded value at every operator exactly if all of these
values fit the types of their operators.
-/
namespace MiniC

open Syntax

mutual

/-- The operators of a constant expression, operands first. -/
def Syntax.Expr.operations : Expr → List Expr
  | ⟨kind, span, ty⟩ => kind.operations ⟨kind, span, ty⟩

/-- The operators of the operands, and the whole. -/
def Syntax.ExprKind.operations (whole : Expr) : ExprKind → List Expr
  | .unary _ operand => operand.operations ++ [whole]
  | .binary _ left right => left.operations ++ (right.operations ++ [whole])
  | _ => []

end

namespace Evaluation

open Lowering (isUnsigned machineBinary machineUnary)
open Machine (Fault)
open Typing (HasType HasValue)

/-- An expression that folds to a word. -/
inductive Folds : Expr → Int64 → Prop
  | integer {n span ty} : Folds ⟨.integer n, span, ty⟩ n
  | character {b span ty} : Folds ⟨.character b, span, ty⟩ (characterValue b)
  | neg {operand span ty v} : Folds operand v → Folds ⟨.unary .neg operand, span, ty⟩ (-v)
  | binary {op left right span ty v w n} : Folds left v → Folds right w →
      op.constant? v w = some n → Folds ⟨.binary op left right, span, ty⟩ n

theorem Folds.constant {e : Expr} {n : Int64} (h : Folds e n) : e.constant? = some n := by
  induction h with
  | integer => rfl
  | character => rfl
  | neg _ ih =>
    rw [Expr.constant?, ExprKind.constant?, ih]
    rfl
  | binary _ _ hop ihl ihr =>
    rw [Expr.constant?, ExprKind.constant?, ihl, ihr]
    exact hop

theorem folds_of_constant : ∀ {e : Expr} {n : Int64}, e.constant? = some n → Folds e n
  | ⟨.integer _, _, _⟩, _, h => by
    cases h
    exact .integer
  | ⟨.character _, _, _⟩, _, h => by
    cases h
    exact .character
  | ⟨.unary .neg operand, _, _⟩, _, h => by
    rw [Expr.constant?, ExprKind.constant?] at h
    obtain ⟨v, hv, rfl⟩ := Option.map_eq_some_iff.mp h
    exact .neg (folds_of_constant hv)
  | ⟨.binary op left right, _, _⟩, _, h => by
    rw [Expr.constant?, ExprKind.constant?] at h
    cases hl : left.constant? with
    | none => simp [hl] at h
    | some v =>
      cases hr : right.constant? with
      | none => simp [hl, hr] at h
      | some w =>
        simp only [hl, hr] at h
        exact .binary (folds_of_constant hl) (folds_of_constant hr) h
termination_by e => sizeOf e

mutual

/-- What a constant expression comes to, with every operator at its type. -/
def computed (r : Registry) : Expr → Except Fault Int64
  | ⟨kind, _, ty⟩ => computedKind r (ty.getD Registry.void) kind

def computedKind (r : Registry) (ty : TypeId) : ExprKind → Except Fault Int64
  | .integer n => .ok n
  | .character b => .ok (characterValue b)
  | .unary op operand =>
    match computed r operand with
    | .error e => .error e
    | .ok v => .ok (convert r ((machineUnary op).eval v) ty)
  | .binary op left right =>
    match computed r left with
    | .error e => .error e
    | .ok v =>
      match computed r right with
      | .error e => .error e
      | .ok w => arithmetic r op v (left.ty.getD Registry.void) w (right.ty.getD Registry.void) ty
  | _ => .ok 0

end

/-- The folded value is one of the expression's type. -/
def InRange (r : Registry) (e : Expr) : Prop :=
  ∀ n ∈ e.constant?, convert r n (e.ty.getD Registry.void) = n

/-- No word with a sign is divided as one without. -/
def DividesAlike (r : Registry) (e : Expr) : Prop :=
  match e.kind with
  | .binary op left right => isDivision op = true → isUnsigned r (e.ty.getD Registry.void) = true →
      (∀ v ∈ left.constant?, 0 ≤ v) ∧ ∀ w ∈ right.constant?, 0 ≤ w
  | _ => True

/-- Evaluation comes to the folded value. -/
def AsFolded (r : Registry) (e : Expr) : Prop := ∀ n ∈ e.constant?, computed r e = .ok n

section Folding

variable {r : Registry} {op : BinaryOp} {l w n : Int64}

theorem checkedWord_eq_some {i : Int} (h : checkedWord i = some n) :
    n.toInt = i ∧ n = Int64.ofInt i := by
  unfold checkedWord at h
  dsimp only at h
  split at h
  · obtain rfl := Option.some.inj h
    exact ⟨‹_›, rfl⟩
  · cases h

theorem checkedQuotient_eq_some {i : Int} (h : checkedQuotient l w i = some n) :
    w ≠ 0 ∧ n = Int64.ofInt i := by
  unfold checkedQuotient at h
  split at h
  · cases h
  · obtain ⟨-, -, rfl⟩ := Option.map_eq_some_iff.mp h
    exact ⟨‹_›, rfl⟩

theorem reads_toInt {unsigned : Bool} (h : unsigned = true → 0 ≤ l) :
    Reads ⟨8, !unsigned⟩ l l.toInt := by
  cases unsigned with
  | false => rfl
  | true =>
    have hnonneg := h rfl
    rw [Int64.le_iff_toInt_le, Int64.toInt_zero] at hnonneg
    show (l.toUInt64.toNat : Int) = l.toInt
    rw [toNat_toUInt64]
    have hlt := Int64.toInt_lt l
    omega

/-- The machine's operator on the operands yields the folded value. -/
theorem operate_constant {unsigned : Bool} (h : op.constant? l w = some n)
    (hl : isDivision op = true → unsigned = true → 0 ≤ l)
    (hw : isDivision op = true → unsigned = true → 0 ≤ w) :
    operate (machineBinary op unsigned) l w = .ok n := by
  cases op with
  | add =>
    obtain ⟨-, rfl⟩ := checkedWord_eq_some h
    rw [Int64.ofInt_add, Int64.ofInt_toInt, Int64.ofInt_toInt]
    rfl
  | sub =>
    obtain ⟨-, rfl⟩ := checkedWord_eq_some h
    rw [Int64.ofInt_sub, Int64.ofInt_toInt, Int64.ofInt_toInt]
    rfl
  | mul =>
    obtain ⟨-, rfl⟩ := checkedWord_eq_some h
    rw [Int64.ofInt_mul, Int64.ofInt_toInt, Int64.ofInt_toInt]
    rfl
  | div =>
    obtain ⟨hzero, rfl⟩ := checkedQuotient_eq_some h
    have hquotient := (Reads.quotient (reads_toInt (hl rfl)) (reads_toInt (hw rfl))
      (by rwa [ne_eq, ← Int64.toInt_zero, Int64.toInt_inj])).1
    rwa [Bool.not_not] at hquotient
  | mod =>
    obtain ⟨hzero, rfl⟩ := checkedQuotient_eq_some h
    have hquotient := (Reads.quotient (reads_toInt (hl rfl)) (reads_toInt (hw rfl))
      (by rwa [ne_eq, ← Int64.toInt_zero, Int64.toInt_inj])).2
    rwa [Bool.not_not] at hquotient
  | _ => cases h

/-- What folds is no comparison. -/
theorem not_isComparison_of_constant (h : op.constant? l w = some n) : op.isComparison = false := by
  cases op with
  | add | sub | mul | div | mod => rfl
  | _ => cases h

theorem arithmetic_constant {a b ty : TypeId} (h : op.constant? l w = some n)
    (ha : Lowering.stride? r a = none) (hb : Lowering.stride? r b = none)
    (hl : isDivision op = true → isUnsigned r ty = true → 0 ≤ l)
    (hw : isDivision op = true → isUnsigned r ty = true → 0 ≤ w) :
    arithmetic r op l a w b ty = .ok (convert r n ty) := by
  have hinteger : arithmetic r op l a w b ty = integerArithmetic r op l a w b ty := by
    unfold arithmetic
    rw [ha, hb]
    split <;> simp_all
  rw [hinteger, integerArithmetic, not_isComparison_of_constant h, operate_constant h hl hw]
  rfl

end Folding

/-! Constants of the tree. -/

section Trees

variable {E : Typing.Env} {C : Typing.Site} {n : Int64} {t : TypeId}

theorem decays_of_isInteger {r : Registry} {t' : TypeId} (h : r.Decays t t')
    (ht : r.isInteger t = true) : t' = t := by
  unfold Registry.Decays at h
  unfold Registry.isInteger at ht
  cases hty : r.ty t <;> simp_all

theorem stride_of_isInteger {r : Registry} (ht : r.isInteger t = true) :
    Lowering.stride? r t = none := by
  unfold Registry.isInteger at ht
  unfold Lowering.stride? Registry.element?
  cases hty : r.ty t <;> simp_all

theorem binaryType_of_constant {r : Registry} {op : BinaryOp} {v w : Int64} {a b : TypeId}
    {span : Span} (h : op.constant? v w = some n) (ha : r.isInteger a = true)
    (hb : r.isInteger b = true) :
    Typing.binaryType r op a b span = .ok (Typing.arithmeticType r a b) := by
  have hpointer {t : TypeId} (ht : r.isInteger t = true) : r.isPointer t = false := by
    unfold Registry.isInteger at ht
    unfold Registry.isPointer
    cases hty : r.ty t <;> simp_all
  have hscalar {t : TypeId} (ht : r.isInteger t = true) : r.isScalar t = true := by
    simp [Registry.isScalar, ht]
  simp only [Typing.binaryType, hscalar ha, hscalar hb, hpointer ha, hpointer hb]
  cases op with
  | add | sub | mul | div | mod => rfl
  | _ => cases h

/-- Constants are integers. -/
theorem Folds.isInteger (hc : E.registry.Consistent) {e : Expr} (h : Folds e n)
    (he : HasType E C e t) : E.registry.isInteger t = true := by
  induction h generalizing t with
  | integer =>
    cases he
    assumption
  | character =>
    cases he
    exact Typing.isInteger_int hc (by decide)
  | neg _ _ =>
    cases he with
    | unary _ hty => exact Typing.isInteger_unaryType hc hty
  | binary _ _ hop ihl ihr =>
    cases he with
    | binary hl hr hty =>
      obtain ⟨hl, hdl⟩ := hl
      obtain ⟨hr, hdr⟩ := hr
      obtain rfl := decays_of_isInteger hdl (ihl hl)
      obtain rfl := decays_of_isInteger hdr (ihr hr)
      rw [binaryType_of_constant hop (ihl hl) (ihr hr)] at hty
      cases hty
      exact Typing.isInteger_arithmeticType hc (ihl hl) (ihr hr)

theorem Folds.operations_binary (op : BinaryOp) (left right : Expr) (span : Span)
    (ty : Option TypeId) : Expr.operations ⟨.binary op left right, span, ty⟩ =
      left.operations ++ (right.operations ++ [⟨.binary op left right, span, ty⟩]) := by
  rw [Expr.operations, ExprKind.operations]

theorem Folds.operations_unary (op : UnaryOp) (operand : Expr) (span : Span) (ty : Option TypeId) :
    Expr.operations ⟨.unary op operand, span, ty⟩ =
      operand.operations ++ [⟨.unary op operand, span, ty⟩] := by
  rw [Expr.operations, ExprKind.operations]

theorem Folds.asFolded_iff {r : Registry} {e : Expr} (h : Folds e n) :
    AsFolded r e ↔ computed r e = .ok n := by
  unfold AsFolded
  rw [h.constant]
  simp

theorem Folds.inRange_iff {r : Registry} {e : Expr} (h : Folds e n) :
    InRange r e ↔ convert r n (e.ty.getD Registry.void) = n := by
  unfold InRange
  rw [h.constant]
  simp

/-- What is as folded at every operator is as folded as a whole. -/
theorem Folds.computed_eq {r : Registry} {e : Expr} (h : Folds e n)
    (hall : ∀ d ∈ e.operations, AsFolded r d) : computed r e = .ok n := by
  cases h with
  | integer => rw [computed, computedKind]
  | character => rw [computed, computedKind]
  | neg hv =>
    refine (Folds.neg hv).asFolded_iff.mp (hall _ ?_)
    rw [operations_unary]
    exact List.mem_append_right _ List.mem_cons_self
  | binary hl hr hop =>
    refine (Folds.binary hl hr hop).asFolded_iff.mp (hall _ ?_)
    rw [operations_binary]
    exact List.mem_append_right _ (List.mem_append_right _ List.mem_cons_self)

/-- An operator on operands that agree yields the folded value, reduced to its type. -/
theorem Folds.computed_neg {r : Registry} {operand : Expr} {span : Span} {v : Int64}
    (hv : computed r operand = .ok v) :
    computed r ⟨.unary .neg operand, span, some t⟩ = .ok (convert r (-v) t) := by
  rw [computed, computedKind, hv]
  rfl

theorem Folds.computed_binary (hc : E.registry.Consistent) {op : BinaryOp} {left right : Expr}
    {span : Span} {v w : Int64} (hl : Folds left v) (hr : Folds right w)
    (hop : op.constant? v w = some n)
    (he : HasType E C ⟨.binary op left right, span, some t⟩ t)
    (hdivides : DividesAlike E.registry ⟨.binary op left right, span, some t⟩)
    (hv : computed E.registry left = .ok v) (hw : computed E.registry right = .ok w) :
    computed E.registry ⟨.binary op left right, span, some t⟩ = .ok (convert E.registry n t) := by
  cases he with
  | binary hleft hright _ =>
    obtain ⟨hleft, -⟩ := hleft
    obtain ⟨hright, -⟩ := hright
    rw [computed, computedKind, hv, hleft.ty_eq, hright.ty_eq]
    simp only [hw]
    refine arithmetic_constant hop (stride_of_isInteger (hl.isInteger hc hleft))
      (stride_of_isInteger (hr.isInteger hc hright)) (fun hd hu => ?_) (fun hd hu => ?_)
    · exact (hdivides hd hu).1 v hl.constant
    · exact (hdivides hd hu).2 w hr.constant

/-- Where no word with a sign is divided as one without, evaluation comes to the folded value at
every operator exactly if every operator's value fits its type. -/
theorem Folds.asFolded_iff_inRange (hc : E.registry.Consistent) {e : Expr} (h : Folds e n)
    (he : HasType E C e t) (hdivides : ∀ d ∈ e.operations, DividesAlike E.registry d) :
    (∀ d ∈ e.operations, AsFolded E.registry d) ↔ ∀ d ∈ e.operations, InRange E.registry d := by
  induction h generalizing t with
  | integer | character => exact ⟨fun _ => nofun, fun _ => nofun⟩
  | @neg operand span ty v hv ih =>
    obtain rfl := he.ty_eq
    rw [operations_unary] at hdivides ⊢
    simp only [List.forall_mem_append, List.forall_mem_singleton] at hdivides ⊢
    obtain ⟨o, ho⟩ : ∃ o, HasType E C operand o := by
      cases he with
      | unary ho _ =>
        obtain ⟨ho, -⟩ := ho
        exact ⟨_, ho⟩
    have hoperand := ih ho hdivides.1
    have hnode (hall : ∀ d ∈ operand.operations, AsFolded E.registry d) :
        AsFolded E.registry ⟨.unary .neg operand, span, some t⟩ ↔
          InRange E.registry ⟨.unary .neg operand, span, some t⟩ := by
      rw [(Folds.neg hv).asFolded_iff, (Folds.neg hv).inRange_iff,
        computed_neg (hv.computed_eq hall)]
      simp
    constructor
    · rintro ⟨hall, hfolded⟩
      exact ⟨hoperand.mp hall, (hnode hall).mp hfolded⟩
    · rintro ⟨hall, hfits⟩
      exact ⟨hoperand.mpr hall, (hnode (hoperand.mpr hall)).mpr hfits⟩
  | @binary op left right span ty v w n hl hr hop ihl ihr =>
    obtain rfl := he.ty_eq
    rw [operations_binary] at hdivides ⊢
    simp only [List.forall_mem_append, List.forall_mem_singleton] at hdivides ⊢
    obtain ⟨a, b, ha, hb⟩ : ∃ a b, HasType E C left a ∧ HasType E C right b := by
      cases he with
      | binary ha hb _ =>
        obtain ⟨ha, -⟩ := ha
        obtain ⟨hb, -⟩ := hb
        exact ⟨_, _, ha, hb⟩
    have hleft := ihl ha hdivides.1
    have hright := ihr hb hdivides.2.1
    have hnode (hall : ∀ d ∈ left.operations, AsFolded E.registry d)
        (hall' : ∀ d ∈ right.operations, AsFolded E.registry d) :
        AsFolded E.registry ⟨.binary op left right, span, some t⟩ ↔
          InRange E.registry ⟨.binary op left right, span, some t⟩ := by
      rw [(Folds.binary hl hr hop).asFolded_iff, (Folds.binary hl hr hop).inRange_iff,
        computed_binary hc hl hr hop he hdivides.2.2 (hl.computed_eq hall) (hr.computed_eq hall')]
      simp
    constructor
    · rintro ⟨hall, hall', hfolded⟩
      exact ⟨hleft.mp hall, hright.mp hall', (hnode hall hall').mp hfolded⟩
    · rintro ⟨hall, hall', hfits⟩
      have hl := hleft.mpr hall
      have hr := hright.mpr hall'
      exact ⟨hl, hr, (hnode hl hr).mpr hfits⟩

end Trees

end Evaluation
end MiniC
