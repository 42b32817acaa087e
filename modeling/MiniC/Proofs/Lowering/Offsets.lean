import Mathlib.Algebra.Ring.Int.Defs
import MiniC.Proofs.Layout.Leaves
import MiniC.Proofs.Typing.Judgement
/-!
Offsets of access paths, added up as integers. A path goes on from a base by the offsets of its members and
by its constant subscripts. Main statement: the sum for a path with confined subscripts leaves room for its
object in a word.
-/
namespace MiniC

open Syntax
open Layout (maxObjectSize)
open Typing (HasType Site)

/-- Integers that are words. -/
def Word (z : Int) : Prop := -2 ^ 63 ≤ z ∧ z < 2 ^ 63

theorem toInt_ofInt_eq_iff {z : Int} : (Int64.ofInt z).toInt = z ↔ Word z := by
  constructor
  · intro h
    rw [← h]
    exact ⟨Int64.le_toInt _, Int64.toInt_lt _⟩
  · exact fun h => Int64.toInt_ofInt_of_le h.1 h.2

theorem ofInt_natCast (n : Nat) : Int64.ofInt n = Int64.ofNat n := Int64.ofInt_eq_ofNat

theorem Typing.element_of_elementType {r : Registry} {a t : TypeId} {span : Span}
    (h : elementType r a span = .ok t) : r.element? a = some t := by
  unfold elementType at h
  split at h
  · rename_i element helement
    split at h
    · cases h
    · cases h
      exact helement
  · cases h

namespace Lowering

/-- By how much a constant subscript goes on, reduced to a word. -/
def subscriptOffset (size : Nat) (index : Expr) : Int :=
  index.constant?.elim 0 fun i => (i * Int64.ofNat size).toInt

mutual

/-- The offset of an access path from its base. What is no path has none. -/
def pathOffset (r : Registry) : Expr → Int
  | ⟨kind, _, ty⟩ => kindOffset r ty kind

def kindOffset (r : Registry) (ty : Option TypeId) : ExprKind → Int
  | .member object _ (some m) => pathOffset r object + m.offset
  | .pointerMember _ _ (some m) => m.offset
  | .index array index =>
    (if array.ty.any r.isArray then pathOffset r array else 0) +
      subscriptOffset (ty.elim 0 r.sizeOf) index
  | _ => 0

end

/-- A constant subscript, or zero for any other, stays inside an array, and behind a pointer it leaves
room for the object. -/
def subscriptConfined (r : Registry) (array : Option TypeId) (size : Nat) (index : Expr) : Bool :=
  let i := index.constant?.elim 0 Int64.toInt
  match array.map r.ty with
  | some (.array _ length) => decide (0 ≤ i ∧ i < length)
  | _ => decide (-2 ^ 63 ≤ i * size ∧ i * size + size < 2 ^ 63)

mutual

/-- All subscripts of an access path are confined. -/
def confined (r : Registry) : Expr → Bool
  | ⟨kind, _, ty⟩ => kindConfined r ty kind

def kindConfined (r : Registry) (ty : Option TypeId) : ExprKind → Bool
  | .member object _ _ => confined r object
  | .index array index =>
    subscriptConfined r array.ty (ty.elim 0 r.sizeOf) index &&
      (!array.ty.any r.isArray || confined r array)
  | _ => true

end

section Bounds

variable {r : Registry} {G : List Symbol} {C : Site} {t a : TypeId} {index : Expr} {size : Nat}

/-- The sum leaves room for so many bytes. -/
def Roomy (z : Int) (size : Nat) : Prop := -2 ^ 63 ≤ z ∧ z + size < 2 ^ 63

theorem Roomy.word {z : Int} (h : Roomy z size) {k n : Nat} (hk : k + n ≤ size) : Word (z + k) := by
  obtain ⟨hlow, hhigh⟩ := h
  exact ⟨by omega, by omega⟩

theorem sizeOf_le (hc : r.Consistent) (t : TypeId) : r.sizeOf t ≤ maxObjectSize := by
  by_cases ht : t.index < r.types.size
  · exact (hc.entry t ht).size
  · have hnone : r.types[t.index]? = none := Array.getElem?_eq_none (Nat.le_of_not_lt ht)
    rw [Registry.sizeOf, Registry.info, Array.getD_eq_getD_getElem?, hnone]
    exact Nat.zero_le _

theorem roomy_zero (hc : r.Consistent) (t : TypeId) : Roomy 0 (r.sizeOf t) := by
  have hle := sizeOf_le hc t
  have hmax : maxObjectSize = 2 ^ 63 - 1 := by decide
  unfold Roomy
  omega

theorem subscriptOffset_eq (h : Word (index.constant?.elim 0 Int64.toInt * size)) :
    subscriptOffset size index = index.constant?.elim 0 Int64.toInt * size := by
  unfold subscriptOffset
  cases hindex : index.constant? with
  | none => simp
  | some i =>
    rw [hindex] at h
    have hword : i * Int64.ofNat size = Int64.ofInt (i.toInt * size) := by
      rw [Int64.ofInt_mul, Int64.ofInt_toInt, ofInt_natCast]
    show (i * Int64.ofNat size).toInt = i.toInt * size
    rw [hword]
    exact toInt_ofInt_eq_iff.mpr h

/-- An element inside an array that there is room for, or one that a pointer leaves room for. -/
theorem roomy_subscript (hc : r.Consistent) {z : Int} (helement : r.element? a = some t)
    (hz : r.isArray a = true → Roomy z (r.sizeOf a))
    (hin : subscriptConfined r (some a) (r.sizeOf t) index = true) :
    Roomy ((if r.isArray a then z else 0) + subscriptOffset (r.sizeOf t) index) (r.sizeOf t) := by
  unfold Registry.element? at helement
  unfold subscriptConfined at hin
  unfold Registry.isArray at hz ⊢
  cases hty : r.ty a with
  | array element length =>
    simp only [hty, Option.map_some, decide_eq_true_eq] at helement hin hz ⊢
    obtain rfl := Option.some.inj helement
    obtain ⟨i, hi⟩ := Int.eq_ofNat_of_zero_le hin.1
    have hlength : i + 1 ≤ length := by omega
    have hspace := Nat.mul_le_mul_left (r.sizeOf element) hlength
    rw [Nat.mul_succ, ← (hc.size_array hty).1] at hspace
    have hproduct : index.constant?.elim 0 Int64.toInt * (r.sizeOf element : Int) =
        (r.sizeOf element * i : Nat) := by
      rw [hi, Int.mul_comm]
      rfl
    have hle := (roomy_zero hc a).2
    obtain ⟨hlow, hhigh⟩ := hz trivial
    rw [subscriptOffset_eq (by rw [hproduct]; exact ⟨by omega, by omega⟩), hproduct]
    exact ⟨by omega, by omega⟩
  | pointer target =>
    simp only [hty, Option.map_some, decide_eq_true_eq] at helement hin ⊢
    rw [subscriptOffset_eq ⟨hin.1, by omega⟩, if_neg Bool.false_ne_true, Int.zero_add]
    exact hin
  | _ => simp [hty] at helement

mutual

/-- A path whose subscripts are confined leaves room for its object. -/
theorem roomy_path (hc : r.Consistent) (C : Site) (t : TypeId) : ∀ e, HasType ⟨r, G⟩ C e t →
    confined r e = true → Roomy (pathOffset r e) (r.sizeOf t)
  | ⟨kind, span, ty⟩, h, hin => by
    obtain rfl : ty = some t := h.ty_eq
    rw [pathOffset]
    rw [confined] at hin
    exact roomy_kind hc C t span kind h hin

theorem roomy_kind (hc : r.Consistent) (C : Site) (t : TypeId) (span : Span) : ∀ k,
    HasType ⟨r, G⟩ C ⟨k, span, some t⟩ t → kindConfined r (some t) k = true →
      Roomy (kindOffset r (some t) k) (r.sizeOf t)
  | .member object field resolved, h, hin => by
    cases h with
    | @member _ _ _ _ o m ho hm =>
      rw [kindConfined] at hin
      rw [kindOffset]
      have hobject := roomy_path hc C o object ho hin
      have hinside := (hc.inside_of_member hm).2
      unfold Roomy at hobject ⊢
      omega
  | .pointerMember pointer field resolved, h, _ => by
    cases h with
    | @pointerMember _ _ _ _ _ target m _ _ hm =>
      rw [kindOffset]
      have htarget := roomy_zero hc target
      have hinside := (hc.inside_of_member hm).2
      unfold Roomy at htarget ⊢
      omega
  | .index array index, h, hin => by
    cases h with
    | @index _ _ _ _ a _ _ ha _ _ helement =>
      rw [kindConfined, ha.ty_eq, Bool.and_eq_true] at hin
      rw [kindOffset, ha.ty_eq]
      refine roomy_subscript hc (Typing.element_of_elementType helement) (fun harray => ?_) hin.1
      refine roomy_path hc C a array ha ?_
      simpa [harray] using hin.2
  | .integer _, _, _ | .character _, _, _ | .string _, _, _ | .name _, _, _ | .binary .., _, _ |
    .unary .., _, _ | .assign .., _, _ | .conditional .., _, _ | .call .., _, _ | .cast .., _, _ |
    .query .., _, _ | .typeQuery .., _, _ | .addressOf _, _, _ | .deref _, _, _ | .step .., _, _ |
    .comma _, _, _ | .block _, _, _ => roomy_zero hc t

end

end Bounds

end Lowering
end MiniC
