import MiniC.Proofs.Evaluation.Conversions
import MiniC.Proofs.Lowering.Straight
/-!
When the code for an operator on integers follows the usual arithmetic conversions: for all values
of two types exactly if the operator is safe for them.
-/
namespace MiniC.Lowering

open Code (Operand)
open Evaluation (Held Safe accesses number operators integer typed usual)
open Machine (Fault Frame Program Routine Stuck)
open Registry (widths HasScalars)
open Typing (arithmeticType binaryType)

section Unique

variable {p : Program} {rt : Routine} {s s' : State} {f g : Frame} {m n : Machine.State}
  {v : Operand} {x y : Except Fault Int64}

theorem stuck_of_end (hbody : rt.body.size ≤ g.pc) : Stuck p rt g n := by
  intro i h t hat
  rw [Array.getElem?_eq_none hbody] at hat
  cases hat

theorem stuck_of_done {i : Code.Inst} {e : Fault} {u : Machine.State}
    (hat : rt.body[g.pc]? = some i) (hn : Machine.next p rt g n i = .done (.error e) u) :
    Stuck p rt g n := by
  intro j h t hat'
  obtain rfl := Option.some.inj (hat.symm.trans hat')
  rw [hn]
  nofun

/-- Code that ends its routine computes one thing. -/
theorem Gives.unique (hbody : rt.body.size = s'.code.size) (hx : Gives p rt s s' f m v x)
    (hy : Gives p rt s s' f m v y) : x = y := by
  cases x with
  | ok w =>
    obtain ⟨g, n, hg, hv, -⟩ := hx
    have hstuck : Stuck p rt g n := stuck_of_end (by rw [hbody, hg.pc])
    cases y with
    | ok w' =>
      obtain ⟨g', n', hg', hv', -⟩ := hy
      obtain ⟨rfl, rfl⟩ := hg.path.unique hg'.path hstuck (stuck_of_end (by rw [hbody, hg'.pc]))
      exact hv.symm.trans hv'
    | error e =>
      obtain ⟨g', n', i, u, hpath, hat, hn, -⟩ := hy
      obtain ⟨rfl, rfl⟩ := hg.path.unique hpath hstuck (stuck_of_done hat hn)
      rw [Array.getElem?_eq_none (by rw [hbody, hg.pc])] at hat
      cases hat
  | error e =>
    obtain ⟨g, n, i, u, hpath, hat, hn, -⟩ := hx
    have hstuck : Stuck p rt g n := stuck_of_done hat hn
    cases y with
    | ok w' =>
      obtain ⟨g', n', hg', -, -⟩ := hy
      obtain ⟨rfl, rfl⟩ := hpath.unique hg'.path hstuck (stuck_of_end (by rw [hbody, hg'.pc]))
      rw [Array.getElem?_eq_none (by rw [hbody, hg'.pc])] at hat
      cases hat
    | error e' =>
      obtain ⟨g', n', i', u', hpath', hat', hn', -⟩ := hy
      obtain ⟨rfl, rfl⟩ := hpath.unique hpath' hstuck (stuck_of_done hat' hn')
      obtain rfl := Option.some.inj (hat.symm.trans hat')
      rw [hn] at hn'
      cases hn'
      rfl

end Unique

/-! Code for operators is always found. -/

theorem define_total (make : Code.Temp → Code.Inst) (s : State) : ∃ v s', define make s = .ok (v, s') :=
  ⟨_, _, define_eq_ok.mpr ⟨rfl, rfl⟩⟩

theorem convert_total (r : Registry) (a : Operand) (ty : TypeId) (s : State) :
    ∃ v s', convert r a ty s = .ok (v, s') := by
  unfold convert
  cases r.access? ty with
  | none => exact ⟨_, _, rfl⟩
  | some access =>
    by_cases hwide : 8 ≤ access.size
    · simp only [if_pos hwide]
      exact ⟨_, _, rfl⟩
    · simp only [if_neg hwide]
      cases a with
      | const n => exact ⟨_, _, rfl⟩
      | temp t => exact define_total _ s
      | data l => exact define_total _ s

theorem integerArithmetic_total (r : Registry) (op : Syntax.BinaryOp) (left : Operand)
    (leftTy : TypeId) (right : Operand) (rightTy result : TypeId) (s : State) :
    ∃ v s', integerArithmetic r op left leftTy right rightTy result s = .ok (v, s') := by
  unfold integerArithmetic
  split
  · exact define_total _ s
  · obtain ⟨a, t, ha⟩ := define_total (.binary · (machineBinary op (isUnsigned r result)) left right) s
    obtain ⟨v, s', hv⟩ := convert_total r a result t
    exact ⟨v, s', bind_eq_ok.mpr ⟨a, t, ha, hv⟩⟩

/-- Wherever the code for `op` stands, and whatever operands of types `a` and `b` hold `x` and `y`,
it computes `result`. -/
def Computes (r : Registry) (op : Syntax.BinaryOp) (a b ty : TypeId) (x y : Int64)
    (result : Except Fault Int64) : Prop :=
  ∀ (p : Program) (rt : Routine) (s s' : State) (f : Frame) (m : Machine.State)
    (left right v : Operand), arithmetic r op left a right b ty s = .ok (v, s') → Hosts rt f s' →
    f.pc = s.code.size → Machine.value p f left = .ok x → Machine.value p f right = .ok y →
    left.Below s.temps → right.Below s.temps → Gives p rt s s' f m v result

/-- The routine that is nothing but the code of a state. -/
def alone (s : State) : Routine := ⟨"", 0, s.temps, s.code, {}⟩

section Integers

variable {r : Registry} {op : Syntax.BinaryOp} {a b c : Access} {span : Span} {ty : TypeId}
  {x y : Int64}

/-- What code computes is the value of the operator, and nothing else. -/
theorem computes_iff (hr : r.HasScalars) (ha : a.size ∈ widths) (hb : b.size ∈ widths)
    (hop : op ∈ operators) (hty : binaryType r op (integer a) (integer b) span = .ok ty)
    {result : Except Fault Int64} :
    Computes r op (integer a) (integer b) ty x y result ↔ typed op a b x y = result := by
  have hvalue := Evaluation.arithmetic_eq_typed hr ha hb hop hty x y
  constructor
  · intro hcomputes
    have hcode : ∃ v s', arithmetic r op (.const x) (integer a) (.const y) (integer b) ty
        State.initial = .ok (v, s') := by
      unfold arithmetic
      rw [Evaluation.stride_integer hr ha, Evaluation.stride_integer hr hb]
      cases op <;> exact integerArithmetic_total r _ _ _ _ _ _ _
    obtain ⟨v, s', hs⟩ := hcode
    have hosts : Hosts (alone s') (Frame.enter (alone s') []) s' :=
      ⟨List.prefix_rfl, by simp [Frame.enter, alone]⟩
    have hgives : Gives ⟨{}, {}, {}⟩ (alone s') State.initial s' (Frame.enter (alone s') [])
        ⟨⟨#[]⟩, 0, 0, 0⟩ v (Evaluation.arithmetic r op x (integer a) y (integer b) ty) := by
      apply gives_arithmetic hosts rfl ?_ ?_ ?_ ?_ hs
      · rfl
      · rfl
      · exact trivial
      · exact trivial
    rw [← hvalue]
    exact hgives.unique rfl (hcomputes _ _ _ _ _ _ _ _ _ hs hosts rfl rfl rfl trivial trivial)
  · rintro rfl p rt s s' f m left right v hs hosts hpc hl hw hbl hbw
    rw [← hvalue]
    exact gives_arithmetic hosts hpc hl hw hbl hbw hs

/-- Code follows the conversions, whatever the operands hold, exactly if the operator is safe. -/
theorem computes_usual_iff_safe (hr : r.HasScalars) (ha : a.size ∈ widths) (hb : b.size ∈ widths)
    (hop : op ∈ operators) (hty : binaryType r op (integer a) (integer b) span = .ok ty)
    (hc : r.access? (arithmeticType r (integer a) (integer b)) = some c) :
    (∀ x y, Held a x → Held b y →
      Computes r op (integer a) (integer b) ty x y (usual c op (number a x) (number b y))) ↔
      Safe op a b := by
  rw [Evaluation.access_arithmeticType hr ha hb, Option.some.injEq] at hc
  subst hc
  constructor
  · intro h
    by_contra hsafe
    obtain ⟨x, -, y, -, hx, hy, hne⟩ := Evaluation.unsafe_differs op hop a
      (Evaluation.mem_accesses ha) b (Evaluation.mem_accesses hb) hsafe
    exact hne ((computes_iff hr ha hb hop hty).mp (h x y hx hy))
  · intro hsafe x y hx hy
    exact (computes_iff hr ha hb hop hty).mpr (Evaluation.typed_eq_usual ha hb hx hy hsafe hop)

end Integers

/-- Minus one and one are added as unsigned numbers of four bytes. -/
theorem computes_sum_of_int_and_unsigned :
    Computes (Registry.initial ⟨.lp64, 64⟩) .add (integer ⟨4, true⟩) (integer ⟨4, false⟩)
      (integer ⟨4, false⟩) (-1) 1 (.ok 0) := by
  have hscalars := Registry.hasScalars_initial ⟨.lp64, 64⟩
  have hty : binaryType (Registry.initial ⟨.lp64, 64⟩) .add (integer ⟨4, true⟩)
      (integer ⟨4, false⟩) Span.nowhere = .ok (integer ⟨4, false⟩) := rfl
  have hiff := computes_usual_iff_safe hscalars (by decide) (by decide) (by decide) hty
    (c := ⟨4, false⟩) rfl
  exact hiff.mpr (by decide) (-1) 1 (by decide) (by decide)

/-- Minus one, converted to `unsigned`, is the largest number of that type. The code compares the
words. -/
theorem not_computes_equality_of_int_and_unsigned :
    ¬ Computes (Registry.initial ⟨.lp64, 64⟩) .eq (integer ⟨4, true⟩) (integer ⟨4, false⟩)
      Registry.cInt (-1) 4294967295
      (usual ⟨4, false⟩ .eq (number ⟨4, true⟩ (-1)) (number ⟨4, false⟩ 4294967295)) := by
  have hty : binaryType (Registry.initial ⟨.lp64, 64⟩) .eq (integer ⟨4, true⟩)
      (integer ⟨4, false⟩) Span.nowhere = .ok Registry.cInt := rfl
  rw [computes_iff (Registry.hasScalars_initial _) (by decide) (by decide) (by decide) hty]
  decide

end MiniC.Lowering
