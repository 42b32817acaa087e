import Mathlib.Data.Int.ModEq
import MiniC.Proofs.Evaluation.Action
import MiniC.Proofs.Layout.Scalars
import MiniC.Typing.Rules
/-!
The usual arithmetic conversions. Both operands are converted to the common type of their types,
the operator is applied to the numbers that come of it, and the result is reduced to that type.
Main statement: operators on words follow the conversions for all values of two types exactly if
the operator and the types are `Safe`. Operands are never converted, so a negative value beside an
unsigned one of four bytes keeps bits that the conversion takes away, and a signed comparison at
eight bytes is made unsigned by an operand of type `unsigned`.
-/
namespace MiniC.Evaluation

open Code (truth)
open Lowering (comparesUnsigned isUnsigned machineBinary)
open Machine (Fault)
open Registry (widths HasScalars)
open Syntax (BinaryOp)
open Typing (arithmeticType binaryType promote)

/-- The number of a width and a sign that `n` is taken to. -/
def wrap (a : Access) (n : Int) : Int :=
  if a.signed then n.bmod (Bytes.range a.size) else n % (Bytes.range a.size : Nat)

/-- The number that a word stands for. -/
def number (a : Access) (w : Int64) : Int := wrap a w.toInt

/-- The word of a number in the range of a type. -/
def Held (a : Access) (w : Int64) : Prop := a.truncate w = w

/-- Operators on numbers; the bitwise ones work on two's complement. Other operators are none of the
conversions' business. -/
def exact (op : BinaryOp) (m n : Int) : Option Int :=
  match op with
  | .add => some (m + n)
  | .sub => some (m - n)
  | .mul => some (m * n)
  | .div => if n = 0 then none else some (m.tdiv n)
  | .mod => if n = 0 then none else some (m.tmod n)
  | .bitAnd => some (Int64.ofInt m &&& Int64.ofInt n).toInt
  | .bitOr => some (Int64.ofInt m ||| Int64.ofInt n).toInt
  | .bitXor => some (Int64.ofInt m ^^^ Int64.ofInt n).toInt
  | .eq => some (if m = n then 1 else 0)
  | .ne => some (if m ≠ n then 1 else 0)
  | .lt => some (if m < n then 1 else 0)
  | .le => some (if m ≤ n then 1 else 0)
  | .gt => some (if n < m then 1 else 0)
  | .ge => some (if n ≤ m then 1 else 0)
  | _ => none

/-- `m op n` by way of the common type `c`. -/
def usual (c : Access) (op : BinaryOp) (m n : Int) : Except Fault Int64 :=
  match exact op (wrap c m) (wrap c n) with
  | none => .error .divisionByZero
  | some k => .ok (Int64.ofInt (if op.isComparison then k else wrap c k))

def operators : List BinaryOp :=
  [.add, .sub, .mul, .div, .mod, .bitAnd, .bitOr, .bitXor, .eq, .ne, .lt, .le, .gt, .ge]

def isDivision : BinaryOp → Bool
  | .div | .mod => true
  | _ => false

def isOrder : BinaryOp → Bool
  | .lt | .le | .gt | .ge => true
  | _ => false

/-- The integer type of a width and a sign. -/
def integer (a : Access) : TypeId := Registry.int a.size a.signed

def promoted (a : Access) : Access := if a.size < 4 then ⟨4, true⟩ else a

/-- The common type, by width and sign. -/
def common (a b : Access) : Access :=
  let p := promoted a
  let q := promoted b
  if q.size < p.size then p
  else if p.size < q.size then q
  else ⟨p.size, p.signed && q.signed⟩

/-- Neither operand has bits that a division or a comparison sees and the conversion removes, and
no comparison of signed numbers is made unsigned. -/
def Safe (op : BinaryOp) (a b : Access) : Prop :=
  ¬ ((isDivision op || op.isComparison) ∧ common a b = ⟨4, false⟩ ∧ (a.signed || b.signed)) ∧
    ¬ (isOrder op ∧ common a b = ⟨8, true⟩ ∧ (a = ⟨4, false⟩ ∨ b = ⟨4, false⟩))

instance (op : BinaryOp) (a b : Access) : Decidable (Safe op a b) := inferInstanceAs (Decidable (_ ∧ _))

instance (a : Access) (w : Int64) : Decidable (Held a w) := inferInstanceAs (Decidable (_ = _))

/-! Types by width and sign. -/

section Types

variable {r : Registry} {a b : Access}

theorem promoted_size (ha : a.size ∈ widths) : (promoted a).size = 4 ∨ (promoted a).size = 8 := by
  simp only [widths, List.mem_cons, List.not_mem_nil, or_false] at ha
  unfold promoted
  split
  · exact .inl rfl
  · omega

theorem common_size (ha : a.size ∈ widths) (hb : b.size ∈ widths) :
    (common a b).size = 4 ∨ (common a b).size = 8 := by
  have hp := promoted_size ha
  have hq := promoted_size hb
  simp only [common]
  split
  · exact hp
  · split
    · exact hq
    · exact hp

theorem mem_widths {n : Nat} (h : n = 4 ∨ n = 8) : n ∈ widths := by
  rcases h with rfl | rfl <;> decide

theorem promote_integer (hr : r.HasScalars) (ha : a.size ∈ widths) :
    promote r (integer a) = integer (promoted a) := by
  simp only [promote, integer, promoted, hr.ty_int ha]
  split
  · rfl
  · rfl

theorem arithmeticType_integer (hr : r.HasScalars) (ha : a.size ∈ widths) (hb : b.size ∈ widths) :
    arithmeticType r (integer a) (integer b) = integer (common a b) := by
  have hp : r.ty (integer (promoted a)) = _ := hr.ty_int (mem_widths (promoted_size ha))
  have hq : r.ty (integer (promoted b)) = _ := hr.ty_int (mem_widths (promoted_size hb))
  simp only [arithmeticType, promote_integer hr ha, promote_integer hr hb, common, hp, hq]
  split
  · rfl
  · split
    · rfl
    · rfl

theorem access_arithmeticType (hr : r.HasScalars) (ha : a.size ∈ widths) (hb : b.size ∈ widths) :
    r.access? (arithmeticType r (integer a) (integer b)) = some (common a b) := by
  rw [arithmeticType_integer hr ha hb]
  exact hr.access_int (mem_widths (common_size ha hb))

/-- Integers do not count objects. -/
theorem stride_integer (hr : r.HasScalars) (ha : a.size ∈ widths) :
    Lowering.stride? r (integer a) = none := by
  simp only [Lowering.stride?, integer, hr.element_int ha, Option.map_none]

theorem isInteger_integer (hr : r.HasScalars) (ha : a.size ∈ widths) :
    r.isInteger (integer a) = true ∧ r.isPointer (integer a) = false := by
  simp only [Registry.isInteger, Registry.isPointer, integer, hr.ty_int ha, and_self]

/-- What analysis makes of an operator on integers. -/
theorem binaryType_integer (hr : r.HasScalars) (ha : a.size ∈ widths) (hb : b.size ∈ widths)
    {op : BinaryOp} (hop : op ∈ operators) (span : Span) :
    binaryType r op (integer a) (integer b) span =
      .ok (if op.isComparison then Registry.cInt else integer (common a b)) := by
  obtain ⟨hai, hap⟩ := isInteger_integer hr ha
  obtain ⟨hbi, hbp⟩ := isInteger_integer hr hb
  simp only [binaryType, Registry.isScalar, hai, hbi, hap, hbp, ← arithmeticType_integer hr ha hb]
  simp only [operators, List.mem_cons, List.not_mem_nil, or_false] at hop
  rcases hop with rfl | rfl | rfl | rfl | rfl | rfl | rfl | rfl | rfl | rfl | rfl | rfl | rfl | rfl <;>
    rfl

end Types

/-- An operator on words, by the widths and signs of its operands. -/
def typed (op : BinaryOp) (a b : Access) (x y : Int64) : Except Fault Int64 :=
  if op.isComparison then
    operate (machineBinary op ((!a.signed && decide (4 ≤ a.size)) ||
      (!b.signed && decide (4 ≤ b.size)))) x y
  else
    match operate (machineBinary op (!(common a b).signed)) x y with
    | .error e => .error e
    | .ok v => .ok ((common a b).truncate v)

theorem arithmetic_eq_typed {r : Registry} {a b : Access} (hr : r.HasScalars)
    (ha : a.size ∈ widths) (hb : b.size ∈ widths) {op : BinaryOp} {span : Span} {ty : TypeId}
    (hop : op ∈ operators) (hty : binaryType r op (integer a) (integer b) span = .ok ty)
    (x y : Int64) : arithmetic r op x (integer a) y (integer b) ty = typed op a b x y := by
  have hcompares {a : Access} (ha : a.size ∈ widths) :
      comparesUnsigned r (integer a) = (!a.signed && decide (4 ≤ a.size)) := by
    simp only [comparesUnsigned, isUnsigned, integer, hr.ty_int ha, hr.sizeOf_int ha]
  have hcommon := mem_widths (common_size ha hb)
  rw [binaryType_integer hr ha hb hop, Except.ok.injEq] at hty
  have hint : arithmetic r op x (integer a) y (integer b) ty =
      integerArithmetic r op x (integer a) y (integer b) ty := by
    unfold arithmetic
    rw [stride_integer hr ha, stride_integer hr hb]
    cases op <;> rfl
  rw [hint, integerArithmetic, typed, hcompares ha, hcompares hb]
  by_cases hcompare : op.isComparison
  · simp only [hcompare, if_true]
  · rw [if_neg hcompare] at hty
    subst hty
    rw [if_neg hcompare, if_neg hcompare]
    have hsign : isUnsigned r (integer (common a b)) = !(common a b).signed := by
      simp only [isUnsigned, integer, hr.ty_int hcommon]
    have hconvert (v : Int64) : convert r v (integer (common a b)) = (common a b).truncate v := by
      simp only [convert, integer, hr.access_int hcommon]
    rw [hsign]
    cases operate (machineBinary op (!(common a b).signed)) x y with
    | error e => rfl
    | ok v => exact congrArg Except.ok (hconvert v)

/-! Numbers and the words that stand for them. -/

section Numbers

variable {c a : Access} {m n k : Int} {w x y : Int64}

theorem range_eq (count : Nat) : ((Bytes.range count : Nat) : Int) = 2 ^ (8 * count) := by
  simp [Bytes.range, Nat.shiftLeft_eq]

theorem range_dvd (hc : c.size = 4 ∨ c.size = 8) :
    ((Bytes.range c.size : Nat) : Int) ∣ (2 : Int) ^ 64 := by
  rcases hc with h | h <;> rw [h] <;> decide

theorem wrap_emod (c : Access) (n : Int) :
    wrap c n % (Bytes.range c.size : Nat) = n % (Bytes.range c.size : Nat) := by
  unfold wrap
  split
  · exact Int.bmod_emod
  · exact Int.emod_emod_of_dvd n (dvd_refl _)

theorem wrap_congr (h : m % (Bytes.range c.size : Nat) = n % (Bytes.range c.size : Nat)) :
    wrap c m = wrap c n := by
  unfold wrap
  split
  · rw [← Int.emod_bmod (x := m), h, Int.emod_bmod]
  · exact h

theorem toInt_ofInt_emod (hc : c.size = 4 ∨ c.size = 8) (n : Int) :
    (Int64.ofInt n).toInt % (Bytes.range c.size : Nat) = n % (Bytes.range c.size : Nat) := by
  rw [Int64.toInt_ofInt, show (Int64.size : Nat) = 2 ^ 64 from rfl]
  have h : (n.bmod (2 ^ 64)) % (2 : Int) ^ 64 = n % (2 : Int) ^ 64 := Int.bmod_emod
  rw [← Int.emod_emod_of_dvd _ (range_dvd hc), h, Int.emod_emod_of_dvd _ (range_dvd hc)]

theorem truncate_eq (hc : c.size = 4 ∨ c.size = 8) (w : Int64) :
    c.truncate w = Int64.ofInt (wrap c w.toInt) := by
  rcases hc with h | h
  · simp only [Access.truncate, wrap, h]
    split
    · omega
    · split <;> rfl
  · simp only [Access.truncate, wrap, h]
    rw [if_pos (Nat.le_refl 8)]
    have hword := Int64.toInt_bmod w
    split
    · rw [show Bytes.range 8 = 18446744073709551616 from rfl, hword, Int64.ofInt_toInt]
    · rw [← Int64.toInt_inj, Int64.toInt_ofInt, show (Bytes.range 8) = Int64.size from rfl,
        Int.emod_bmod]
      exact hword.symm

theorem truncate_ofInt (hc : c.size = 4 ∨ c.size = 8) (n : Int) :
    c.truncate (Int64.ofInt n) = Int64.ofInt (wrap c n) := by
  rw [truncate_eq hc, wrap_congr (toInt_ofInt_emod hc n)]

theorem wrap_bounds (ha : a.size = 1 ∨ a.size = 2 ∨ a.size = 4) (n : Int) :
    (a.signed = true → -(2 ^ (8 * a.size - 1)) ≤ wrap a n ∧ wrap a n < 2 ^ (8 * a.size - 1)) ∧
      (a.signed = false → 0 ≤ wrap a n ∧ wrap a n < 2 ^ (8 * a.size)) := by
  obtain ⟨size, signed⟩ := a
  have hpos : 0 < Bytes.range size := by rcases ha with rfl | rfl | rfl <;> decide
  have hlow := Int.le_bmod (x := n) hpos
  have hhigh := Int.bmod_lt (x := n) hpos
  unfold wrap
  dsimp only at ha ⊢
  constructor <;> rintro rfl
  · rw [if_pos rfl]
    rcases ha with rfl | rfl | rfl <;> simp only [range_eq] at hlow hhigh ⊢ <;> omega
  · rw [if_neg (by decide)]
    rcases ha with rfl | rfl | rfl <;> simp only [range_eq] <;> omega

/-- A word of a narrow type is the number it stands for. -/
theorem toInt_of_held (ha : a.size = 1 ∨ a.size = 2 ∨ a.size = 4) (hw : Held a w) :
    w.toInt = wrap a w.toInt := by
  have hword : Int64.ofInt (wrap a w.toInt) = w := by
    unfold Held Access.truncate at hw
    unfold wrap
    rw [if_neg (by omega)] at hw
    split at hw
    · rw [if_pos ‹_›]
      exact hw
    · rw [if_neg ‹_›]
      exact hw
  have hint := congrArg Int64.toInt hword
  obtain ⟨hsigned, hunsigned⟩ := wrap_bounds ha w.toInt
  have hbounds : -(2 ^ 63) ≤ wrap a w.toInt ∧ wrap a w.toInt < 2 ^ 63 := by
    cases h : a.signed with
    | true =>
      have := hsigned h
      rcases ha with h | h | h <;> rw [h] at this <;> omega
    | false =>
      have := hunsigned h
      rcases ha with h | h | h <;> rw [h] at this <;> omega
  rw [Int64.toInt_ofInt_of_le hbounds.1 hbounds.2] at hint
  exact hint.symm

/-- Taking a number by way of a narrower type it fits into changes nothing. -/
theorem wrap_number (hc : c.size = 4 ∨ c.size = 8) (ha : a.size ∈ widths) (hw : Held a w) :
    wrap c (number a w) = wrap c w.toInt := by
  apply wrap_congr
  simp only [widths, List.mem_cons, List.not_mem_nil, or_false] at ha
  by_cases hwide : a.size = 8
  · have h := wrap_emod a w.toInt
    rw [hwide] at h
    have h' : number a w % (2 : Int) ^ 64 = w.toInt % (2 : Int) ^ 64 := h
    rw [← Int.emod_emod_of_dvd _ (range_dvd hc), h', Int.emod_emod_of_dvd _ (range_dvd hc)]
  · rw [number, ← toInt_of_held (by omega) hw]

/-- The number is what the word reads as, with the sign of the type. -/
def Reads (c : Access) (w : Int64) (k : Int) : Prop :=
  if c.signed then w.toInt = k else (w.toUInt64.toNat : Int) = k

theorem toNat_toUInt64 (w : Int64) : (w.toUInt64.toNat : Int) = w.toInt % 2 ^ 64 := by
  have h : w.toUInt64.toNat = w.toBitVec.toNat := rfl
  rw [h, ← Int64.toInt_toBitVec, BitVec.toInt_eq_toNat_bmod]
  have hlt : w.toBitVec.toNat < 2 ^ 64 := w.toBitVec.isLt
  have hmod : (((w.toBitVec.toNat : Int).bmod (2 ^ 64)) % (2 : Int) ^ 64) =
      (w.toBitVec.toNat : Int) % 2 ^ 64 := Int.bmod_emod
  omega

/-- Operands of which no converted bit differs are read as their converted values. -/
theorem reads_wrap (hc : c.size = 4 ∨ c.size = 8) (ha : a.size ∈ widths) (hw : Held a w)
    (hsigned : c = ⟨4, true⟩ → a.size < 4 ∨ a = ⟨4, true⟩)
    (hunsigned : c = ⟨4, false⟩ → a.size ≤ 4 ∧ a.signed = false) :
    Reads c w (wrap c (number a w)) := by
  rw [wrap_number hc ha hw]
  have hnat := toNat_toUInt64 w
  obtain ⟨csize, csigned⟩ := c
  simp only [widths, List.mem_cons, List.not_mem_nil, or_false] at ha
  rcases hc with rfl | rfl <;> cases csigned
  · obtain ⟨hle, hsign⟩ := hunsigned rfl
    have hnarrow : a.size = 1 ∨ a.size = 2 ∨ a.size = 4 := by omega
    have hint := toInt_of_held hnarrow hw
    have hbounds := (wrap_bounds hnarrow w.toInt).2 hsign
    simp only [Reads, wrap, Bool.false_eq_true, if_false, hnat, range_eq]
    rcases hnarrow with h | h | h <;> rw [h] at hbounds <;> omega
  · have hnarrow : a.size = 1 ∨ a.size = 2 ∨ a.size = 4 := by
      rcases hsigned rfl with h | rfl
      · omega
      · exact .inr (.inr rfl)
    have hint := toInt_of_held hnarrow hw
    obtain ⟨hs, hu⟩ := wrap_bounds hnarrow w.toInt
    have hfits : -(2 ^ 31) ≤ w.toInt ∧ w.toInt < 2 ^ 31 := by
      cases hsign : a.signed with
      | true =>
        have := hs hsign
        rcases hnarrow with h | h | h <;> rw [h] at this <;> omega
      | false =>
        have := hu hsign
        rcases hsigned rfl with h | rfl
        · rcases hnarrow with h | h | h <;> rw [h] at this <;> omega
        · cases hsign
    have hbmod : w.toInt.bmod (Bytes.range 4) = w.toInt :=
      Int.bmod_eq_of_le (by rw [range_eq]; omega) (by rw [range_eq]; omega)
    simp only [Reads, wrap, if_true, hbmod]
  · simp only [Reads, wrap, Bool.false_eq_true, if_false, hnat]
    rfl
  · simp only [Reads, wrap, if_true]
    exact (Int64.toInt_bmod w).symm

/-- The low bits of a word say what is left of it in a narrower type. -/
theorem setWidth_eq_iff (hc : c.size = 4 ∨ c.size = 8) :
    x.toBitVec.setWidth (8 * c.size) = y.toBitVec.setWidth (8 * c.size) ↔
      x.toInt % (Bytes.range c.size : Nat) = y.toInt % (Bytes.range c.size : Nat) := by
  have hlow (w : Int64) : ((w.toBitVec.setWidth (8 * c.size)).toNat : Int) =
      w.toInt % (Bytes.range c.size : Nat) := by
    have hnat : (w.toBitVec.toNat : Int) = w.toInt % 2 ^ 64 := toNat_toUInt64 w
    rw [BitVec.toNat_setWidth, Int.natCast_emod, hnat,
      ← Int.emod_emod_of_dvd w.toInt (range_dvd hc), range_eq]
    norm_cast
  rw [← BitVec.toNat_inj, ← Int.natCast_inj, hlow, hlow]

theorem setWidth_truncate (hc : c.size = 4 ∨ c.size = 8) (w : Int64) :
    (c.truncate w).toBitVec.setWidth (8 * c.size) = w.toBitVec.setWidth (8 * c.size) := by
  rw [setWidth_eq_iff hc, truncate_eq hc, toInt_ofInt_emod hc, wrap_emod]

theorem truncate_congr (hc : c.size = 4 ∨ c.size = 8)
    (h : x.toBitVec.setWidth (8 * c.size) = y.toBitVec.setWidth (8 * c.size)) :
    c.truncate x = c.truncate y := by
  rw [truncate_eq hc, truncate_eq hc, wrap_congr ((setWidth_eq_iff hc).mp h)]

/-- Bitwise operators need not look at more than the low bits. -/
theorem truncate_bitwise (hc : c.size = 4 ∨ c.size = 8) {f : Int64 → Int64 → Int64}
    {g : ∀ {n}, BitVec n → BitVec n → BitVec n}
    (hf : ∀ x y, (f x y).toBitVec = g x.toBitVec y.toBitVec)
    (hg : ∀ {n k} (u v : BitVec n), (g u v).setWidth k = g (u.setWidth k) (v.setWidth k))
    (x y : Int64) : c.truncate (f x y) = c.truncate (f (c.truncate x) (c.truncate y)) := by
  apply truncate_congr hc
  rw [hf, hf, hg, hg, setWidth_truncate hc, setWidth_truncate hc]

end Numbers

/-! Operators. -/

section Operators

variable {c a b : Access} {m n : Int} {x y : Int64}

theorem toUInt64_inj : x.toUInt64 = y.toUInt64 ↔ x = y := by
  constructor
  · intro h
    rw [← Int64.toInt64_toUInt64 x, h, Int64.toInt64_toUInt64]
  · exact congrArg _

theorem toInt64_eq (u : UInt64) : u.toInt64 = Int64.ofInt u.toNat := by
  rw [Int64.ofInt_eq_ofNat, ← UInt64.toInt64_ofNat', UInt64.ofNat_toNat]

theorem truth_eq (p : Prop) [Decidable p] : truth (decide p) = Int64.ofInt (if p then 1 else 0) := by
  by_cases h : p
  · simp only [h, if_true, decide_true]
    rfl
  · simp only [h, if_false, decide_false]
    rfl

/-- Sums, differences and products are right whatever bits the conversion removes. -/
theorem truncate_ring (hc : c.size = 4 ∨ c.size = 8) (x y : Int64) :
    c.truncate (x + y) = Int64.ofInt (wrap c (wrap c x.toInt + wrap c y.toInt)) ∧
      c.truncate (x - y) = Int64.ofInt (wrap c (wrap c x.toInt - wrap c y.toInt)) ∧
      c.truncate (x * y) = Int64.ofInt (wrap c (wrap c x.toInt * wrap c y.toInt)) := by
  have hx : wrap c x.toInt ≡ x.toInt [ZMOD (Bytes.range c.size : Nat)] := wrap_emod c x.toInt
  have hy : wrap c y.toInt ≡ y.toInt [ZMOD (Bytes.range c.size : Nat)] := wrap_emod c y.toInt
  refine ⟨?_, ?_, ?_⟩
  · rw [wrap_congr (hx.add hy), ← truncate_ofInt hc, Int64.ofInt_add, Int64.ofInt_toInt,
      Int64.ofInt_toInt]
  · rw [wrap_congr (hx.sub hy), ← truncate_ofInt hc, Int64.ofInt_sub, Int64.ofInt_toInt,
      Int64.ofInt_toInt]
  · rw [wrap_congr (hx.mul hy), ← truncate_ofInt hc, Int64.ofInt_mul, Int64.ofInt_toInt,
      Int64.ofInt_toInt]

variable (hx : Reads c x m) (hy : Reads c y n)

include hy in
theorem Reads.eq_zero_iff : y = 0 ↔ n = 0 := by
  unfold Reads at hy
  split at hy
  · rw [← hy, ← Int64.toInt_inj, Int64.toInt_zero]
  · rw [← hy, ← toUInt64_inj, ← UInt64.toNat_inj]
    exact Int.natCast_eq_zero.symm

include hx hy in
theorem Reads.inj : x = y ↔ m = n := by
  unfold Reads at hx hy
  split at hx
  · rw [← Int64.toInt_inj, hx, if_pos ‹_›] at *
    rw [hy]
  · rw [if_neg ‹_›] at hy
    rw [← hx, ← hy, ← toUInt64_inj, ← UInt64.toNat_inj, Int.natCast_inj]

include hx hy in
/-- A quotient of words is that of the numbers they are read as. -/
theorem Reads.quotient (hn : n ≠ 0) :
    operate (machineBinary .div (!c.signed)) x y = .ok (Int64.ofInt (m.tdiv n)) ∧
      operate (machineBinary .mod (!c.signed)) x y = .ok (Int64.ofInt (m.tmod n)) := by
  have hzero : (y == 0) = false := by
    rw [beq_eq_false_iff_ne, ne_eq, hy.eq_zero_iff]
    exact hn
  unfold Reads at hx hy
  cases hsign : c.signed with
  | true =>
    rw [if_pos hsign] at hx hy
    subst hx hy
    simp only [operate, machineBinary, Code.BinaryOp.eval, Code.BinaryOp.isDivision, hzero,
      Code.BinaryOp.apply, Bool.not_true, Bool.and_false, Bool.false_eq_true, if_false,
      Except.ok.injEq]
    constructor
    · rw [← Int64.toInt_inj, Int64.toInt_div, Int64.toInt_ofInt]
    · rw [← Int64.toInt_inj, Int64.toInt_ofInt, ← Int64.toInt_mod, Int64.toInt_bmod_size]
  | false =>
    rw [if_neg (by simp [hsign])] at hx hy
    subst hx hy
    simp only [operate, machineBinary, Code.BinaryOp.eval, Code.BinaryOp.isDivision, hzero,
      Code.BinaryOp.apply, Bool.not_false, Bool.and_false, Bool.false_eq_true, if_false,
      Except.ok.injEq]
    constructor
    · rw [toInt64_eq, UInt64.toNat_div, Int.natCast_tdiv_eq_ediv]
      rfl
    · rw [toInt64_eq, UInt64.toNat_mod, Int.ofNat_tmod]

include hx hy in
/-- Words compare as the numbers they are read as. -/
theorem Reads.order :
    operate (machineBinary .lt (!c.signed)) x y = .ok (Int64.ofInt (if m < n then 1 else 0)) ∧
      operate (machineBinary .le (!c.signed)) x y = .ok (Int64.ofInt (if m ≤ n then 1 else 0)) ∧
      operate (machineBinary .gt (!c.signed)) x y = .ok (Int64.ofInt (if n < m then 1 else 0)) ∧
      operate (machineBinary .ge (!c.signed)) x y = .ok (Int64.ofInt (if n ≤ m then 1 else 0)) := by
  unfold Reads at hx hy
  cases hsign : c.signed with
  | true =>
    rw [if_pos hsign] at hx hy
    simp only [← truth_eq, ← hx, ← hy, ← Int64.lt_iff_toInt_lt, ← Int64.le_iff_toInt_le]
    exact ⟨rfl, rfl, rfl, rfl⟩
  | false =>
    rw [if_neg (by simp [hsign])] at hx hy
    simp only [← truth_eq, ← hx, ← hy, Int.ofNat_lt, Int.ofNat_le, ← UInt64.lt_iff_toNat_lt,
      ← UInt64.le_iff_toNat_le]
    exact ⟨rfl, rfl, rfl, rfl⟩

include hx hy in
theorem Reads.equality (unsigned : Bool) :
    operate (machineBinary .eq unsigned) x y = .ok (Int64.ofInt (if m = n then 1 else 0)) ∧
      operate (machineBinary .ne unsigned) x y = .ok (Int64.ofInt (if m ≠ n then 1 else 0)) := by
  have heq : (x == y) = decide (m = n) := by
    rw [← beq_eq_decide, Bool.eq_iff_iff, beq_iff_eq, beq_iff_eq, hx.inj hy]
  have hne : (x != y) = decide (m ≠ n) := by
    rw [bne, heq, decide_not]
  rw [← truth_eq, ← truth_eq, ← heq, ← hne]
  exact ⟨rfl, rfl⟩

end Operators

def accesses : List Access := widths.flatMap fun size => [⟨size, true⟩, ⟨size, false⟩]

theorem mem_accesses {a : Access} (ha : a.size ∈ widths) : a ∈ accesses := by
  obtain ⟨size, signed⟩ := a
  refine List.mem_flatMap.mpr ⟨size, ha, ?_⟩
  cases signed
  · exact List.mem_cons_of_mem _ (List.mem_singleton.mpr rfl)
  · exact List.mem_cons_self ..

/-- Which operands have which common type, and when a comparison gets its sign. -/
theorem common_cases : ∀ a ∈ accesses, ∀ b ∈ accesses,
    (common a b = ⟨4, true⟩ →
      (a.size < 4 ∨ a = ⟨4, true⟩) ∧ (b.size < 4 ∨ b = ⟨4, true⟩)) ∧
    (common a b = ⟨4, false⟩ → a.size ≤ 4 ∧ b.size ≤ 4) ∧
    (((!a.signed && decide (4 ≤ a.size)) || (!b.signed && decide (4 ≤ b.size))) =
        (!(common a b).signed) ∨
      common a b = ⟨8, true⟩ ∧ (a = ⟨4, false⟩ ∨ b = ⟨4, false⟩)) := by
  decide

section Safety

variable {op : BinaryOp} {a b : Access} {x y : Int64} (ha : a.size ∈ widths) (hb : b.size ∈ widths)
  (hx : Held a x) (hy : Held b y) (hs : Safe op a b)

include ha hb hx hy hs in
/-- Operands are safe when their words read as the converted numbers. -/
theorem reads_of_safe (hop : (isDivision op || op.isComparison) = true) :
    Reads (common a b) x (wrap (common a b) (number a x)) ∧
      Reads (common a b) y (wrap (common a b) (number b y)) := by
  have hc := common_size ha hb
  obtain ⟨hsigned, hunsigned, -⟩ := common_cases a (mem_accesses ha) b (mem_accesses hb)
  have hsafe (h : common a b = ⟨4, false⟩) : a.signed = false ∧ b.signed = false := by
    have hnone : ¬ (a.signed || b.signed) = true := fun hsign => hs.1 ⟨hop, h, hsign⟩
    simpa using hnone
  exact ⟨reads_wrap hc ha hx (fun h => (hsigned h).1) fun h => ⟨(hunsigned h).1, (hsafe h).1⟩,
    reads_wrap hc hb hy (fun h => (hsigned h).2) fun h => ⟨(hunsigned h).2, (hsafe h).2⟩⟩

include ha hb hs in
theorem order_sign (hop : isOrder op = true) :
    ((!a.signed && decide (4 ≤ a.size)) || (!b.signed && decide (4 ≤ b.size))) =
      (!(common a b).signed) := by
  obtain ⟨-, -, hsign | hlost⟩ := common_cases a (mem_accesses ha) b (mem_accesses hb)
  · exact hsign
  · exact absurd ⟨hop, hlost⟩ hs.2

include ha hb hx hy hs in
theorem typed_division (hop : isDivision op = true) :
    typed op a b x y = usual (common a b) op (number a x) (number b y) := by
  have hc := common_size ha hb
  obtain ⟨hrx, hry⟩ := reads_of_safe ha hb hx hy hs (by rw [hop]; rfl)
  by_cases hzero : wrap (common a b) (number b y) = 0
  · obtain rfl := hry.eq_zero_iff.mpr hzero
    cases op <;> cases hop
    all_goals
      simp only [usual, exact, hzero, if_true]
      simp only [typed, BinaryOp.isComparison]
      cases (common a b).signed <;> rfl
  · obtain ⟨hdiv, hmod⟩ := hrx.quotient hry hzero
    cases op <;> cases hop
    · simp only [typed, usual, exact, BinaryOp.isComparison, Bool.false_eq_true, if_false, hzero, hdiv,
        truncate_ofInt hc]
    · simp only [typed, usual, exact, BinaryOp.isComparison, Bool.false_eq_true, if_false, hzero, hmod,
        truncate_ofInt hc]

include ha hb hx hy hs in
theorem typed_order (hop : isOrder op = true) :
    typed op a b x y = usual (common a b) op (number a x) (number b y) := by
  have hcompare : op.isComparison = true := by cases op <;> first | rfl | cases hop
  obtain ⟨hrx, hry⟩ := reads_of_safe ha hb hx hy hs (by rw [hcompare, Bool.or_true])
  obtain ⟨hlt, hle, hgt, hge⟩ := hrx.order hry
  rw [typed, if_pos hcompare, order_sign ha hb hs hop]
  cases op <;> cases hop
  · exact hlt
  · exact hle
  · exact hgt
  · exact hge

include ha hb hx hy hs in
theorem typed_eq_usual (hop : op ∈ operators) :
    typed op a b x y = usual (common a b) op (number a x) (number b y) := by
  have hc := common_size ha hb
  have hnx := wrap_number hc ha hx
  have hny := wrap_number hc hb hy
  obtain ⟨hadd, hsub, hmul⟩ := truncate_ring hc x y
  have hreads := reads_of_safe ha hb hx hy hs
  have hbitwise {f : Int64 → Int64 → Int64} (h : (common a b).truncate (f x y) =
      (common a b).truncate (f ((common a b).truncate x) ((common a b).truncate y))) :
      (common a b).truncate (f x y) = Int64.ofInt (wrap (common a b)
        (f (Int64.ofInt (wrap (common a b) (number a x)))
          (Int64.ofInt (wrap (common a b) (number b y)))).toInt) := by
    rw [h, hnx, hny, ← truncate_eq hc, ← truncate_eq hc, ← truncate_eq hc]
  simp only [operators, List.mem_cons, List.not_mem_nil, or_false] at hop
  rcases hop with rfl | rfl | rfl | rfl | rfl | rfl | rfl | rfl | rfl | rfl | rfl | rfl | rfl | rfl
  · rw [← hnx, ← hny] at hadd
    exact congrArg Except.ok hadd
  · rw [← hnx, ← hny] at hsub
    exact congrArg Except.ok hsub
  · rw [← hnx, ← hny] at hmul
    exact congrArg Except.ok hmul
  · exact typed_division ha hb hx hy hs rfl
  · exact typed_division ha hb hx hy hs rfl
  · exact congrArg Except.ok
      (hbitwise (truncate_bitwise hc (f := (· &&& ·)) (g := (· &&& ·)) (fun _ _ => rfl)
        (fun _ _ => BitVec.setWidth_and) x y))
  · exact congrArg Except.ok
      (hbitwise (truncate_bitwise hc (f := (· ||| ·)) (g := (· ||| ·)) (fun _ _ => rfl)
        (fun _ _ => BitVec.setWidth_or) x y))
  · exact congrArg Except.ok
      (hbitwise (truncate_bitwise hc (f := (· ^^^ ·)) (g := (· ^^^ ·)) (fun _ _ => rfl)
        (fun _ _ => BitVec.setWidth_xor) x y))
  · obtain ⟨hrx, hry⟩ := hreads rfl
    exact (hrx.equality hry _).1
  · obtain ⟨hrx, hry⟩ := hreads rfl
    exact (hrx.equality hry _).2
  all_goals exact typed_order ha hb hx hy hs rfl

end Safety

/-- Words that show a difference wherever there is one. -/
def samples : List Int64 := [-1, -2, 2, 7, 4294967295, 4294967294]

theorem unsafe_differs : ∀ op ∈ operators, ∀ a ∈ accesses, ∀ b ∈ accesses, ¬ Safe op a b →
    ∃ x ∈ samples, ∃ y ∈ samples, Held a x ∧ Held b y ∧
      typed op a b x y ≠ usual (common a b) op (number a x) (number b y) := by
  decide +kernel

end MiniC.Evaluation
