import MiniC.Proofs.Compilation.Safety
import MiniC.Proofs.Evaluation.Constants
import MiniC.Proofs.Layout.Leaves
import MiniC.Proofs.Lowering.Lowerable
import MiniC.Proofs.Lowering.Straight
import MiniC.Proofs.Machine.Bytes
/-!
Constant expressions of accepted sources. Their code is straight, and gives what evaluation of the
constant comes to. Main statements: what this is is decided by the types of the operators, and is the folded
value if that value fits them all and no word with a sign is divided as one without; and there is a source
in which it is not.
-/
namespace MiniC.Lowering

open Code (Operand)
open Evaluation (Folds computed computedKind)
open Machine (Fault Frame Program Routine)
open Syntax

section Constants

variable {p : Program} {rt : Routine} {c : Context} {r : Registry} {s s' t : State} {f : Frame}
  {m : Machine.State} {v a : Operand} {e : Expr} {n : Int64} {span : Span} {ty : TypeId}

/-- A fault keeps control from whatever code follows. -/
theorem Gives.error {fault : Fault} (h : Gives p rt s t f m a (.error fault)) :
    Gives p rt s s' f m v (.error fault) :=
  h

theorem valueOf_value (act : Lower Operand) : valueOf r (Lowered.value <$> act) = act := by
  unfold valueOf
  rw [map_eq_pure_bind, bind_assoc]
  simp only [pure_bind]
  exact bind_pure act

theorem valueOf_expr_unary (c : Context) (op : UnaryOp) (operand : Expr) (span : Span) (ty : TypeId) :
    valueOf c.registry (expr c ⟨.unary op operand, span, some ty⟩) = (do
      let v ← valueOf c.registry (expr c operand)
      let v ← define (.unary · (machineUnary op) v)
      convert c.registry v ty) := by
  rw [expr, exprKind, ← valueOf_value (r := c.registry) (do
    let v ← valueOf c.registry (expr c operand)
    let v ← define (.unary · (machineUnary op) v)
    convert c.registry v ty)]
  simp only [map_bind]

theorem valueOf_expr_binary (c : Context) {op : BinaryOp} (hop : op.isLogical = false)
    (left right : Expr) (span : Span) (ty : TypeId) :
    valueOf c.registry (expr c ⟨.binary op left right, span, some ty⟩) = (do
      let l ← valueOf c.registry (expr c left)
      let r ← valueOf c.registry (expr c right)
      let leftTy ← typeOf left
      let rightTy ← typeOf right
      arithmetic c.registry op l leftTy r rightTy ty) := by
  rw [expr, exprKind, hop, ← valueOf_value (r := c.registry) (do
      let l ← valueOf c.registry (expr c left)
      let r ← valueOf c.registry (expr c right)
      let leftTy ← typeOf left
      let rightTy ← typeOf right
      arithmetic c.registry op l leftTy r rightTy ty)]
  simp only [map_bind, Bool.false_eq_true, if_false]

theorem untyped_ne_ok {kind : ExprKind} :
    valueOf c.registry (expr c ⟨kind, span, none⟩) s ≠ .ok (v, s') := by
  rw [expr]
  nofun

theorem gives_constant (h : Folds e n) : ∀ {s s' : State} {f : Frame} {m : Machine.State} {v : Operand},
    valueOf c.registry (expr c e) s = .ok (v, s') → Hosts rt f s' → f.pc = s.code.size →
    Gives p rt s s' f m v (computed c.registry e) := by
  induction h with
  | @integer n span ty =>
    intro s s' f m v hrun _ hpc
    cases ty with
    | none => exact absurd hrun untyped_ne_ok
    | some ty =>
      rw [expr, exprKind] at hrun
      rw [computed, computedKind]
      cases hrun
      exact gives_refl hpc rfl trivial
  | @character b span ty =>
    intro s s' f m v hrun _ hpc
    cases ty with
    | none => exact absurd hrun untyped_ne_ok
    | some ty =>
      rw [expr, exprKind] at hrun
      rw [computed, computedKind]
      cases hrun
      exact gives_refl hpc rfl trivial
  | @neg operand span ty w _ ih =>
    intro s s' f m v hrun hr hpc
    cases ty with
    | none => exact absurd hrun untyped_ne_ok
    | some ty =>
      rw [valueOf_expr_unary] at hrun
      obtain ⟨a, t, ha, hrun⟩ := bind_eq_ok.mp hrun
      obtain ⟨b, u, hb, hrun⟩ := bind_eq_ok.mp hrun
      have hconvert := Grows.extends_of (grows_convert c.registry _ _) hrun
      have hdefine := Grows.extends_of (.define _) hb
      have hoperand := Grows.extends_of (grows_valueOf c.registry (grows_expr c operand)) ha
      have hvalue := ih (m := m) ha ((hr.grows hconvert).grows hdefine) hpc
      rw [computed, computedKind]
      cases hcomputed : computed c.registry operand with
      | error fault =>
        rw [hcomputed] at hvalue
        exact hvalue.error
      | ok x =>
        rw [hcomputed] at hvalue
        refine hvalue.bind hoperand.temps fun g u hg hkept hv _ => ?_
        have hneg := gives_unary (m := u) hb ((hr.grows hconvert).kept hkept) hg hv
        refine hneg.bind hdefine.temps fun g' u' hg' hkept' hv' hb' => ?_
        exact gives_convert hrun ((hr.kept hkept).kept hkept') hg' hv' hb'
  | @binary op left right span ty x y n _ _ hop ihl ihr =>
    intro s s' f m v hrun hr hpc
    cases ty with
    | none => exact absurd hrun untyped_ne_ok
    | some ty =>
      have hlogical : op.isLogical = false := by
        cases op with
        | logAnd | logOr => cases hop
        | _ => rfl
      rw [valueOf_expr_binary c hlogical] at hrun
      obtain ⟨a, t, ha, hrun⟩ := bind_eq_ok.mp hrun
      obtain ⟨b, u, hb, hrun⟩ := bind_eq_ok.mp hrun
      obtain ⟨leftTy, _, hneed, hrun⟩ := bind_eq_ok.mp hrun
      obtain ⟨rightTy, _, hneed', hrun⟩ := bind_eq_ok.mp hrun
      obtain ⟨hleftTy, rfl⟩ := need_eq_ok.mp hneed
      obtain ⟨hrightTy, rfl⟩ := need_eq_ok.mp hneed'
      have harithmetic := Grows.extends_of (grows_arithmetic c.registry _ _ _ _ _ _) hrun
      have hright := Grows.extends_of (grows_valueOf c.registry (grows_expr c right)) hb
      have hleft := Grows.extends_of (grows_valueOf c.registry (grows_expr c left)) ha
      have hr' := hr.grows harithmetic
      have hvalue := ihl (m := m) ha (hr'.grows hright) hpc
      rw [computed, computedKind, hleftTy, hrightTy]
      simp only [Option.getD_some]
      cases hl : computed c.registry left with
      | error fault =>
        rw [hl] at hvalue
        exact hvalue.error
      | ok x =>
        rw [hl] at hvalue
        refine hvalue.bind hleft.temps fun g m' hg hkept hv hbelow => ?_
        have hvalue' := ihr (m := m') hb (hr'.kept hkept) hg
        cases hw : computed c.registry right with
        | error fault =>
          rw [hw] at hvalue'
          exact hvalue'.error
        | ok y =>
          rw [hw] at hvalue'
          refine hvalue'.bind hright.temps fun g' m'' hg' hkept' hv' hbelow' => ?_
          exact gives_arithmetic ((hr.kept hkept).kept hkept') hg'
            ((Machine.value_kept hkept' hbelow).trans hv) hv' (hbelow.mono hright.temps) hbelow' hrun

end Constants

/-- There is code for the expression, and wherever that stands, it computes `x`. -/
def Yields (r : Registry) (e : Expr) (x : Except Fault Int64) : Prop :=
  ∀ c : Context, c.registry = r → ∀ s, ∃ v s', valueOf r (expr c e) s = .ok (v, s') ∧
    ∀ p rt f m, Hosts rt f s' → f.pc = s.code.size → Gives p rt s s' f m v x

/-- The code of a constant expression comes to what the operators of the constant make. -/
theorem yields_computed {r : Registry} {G : List Symbol} {C : Typing.Site} {e : Expr}
    {n : Int64} {t : TypeId} (h : Folds e n) (ht : Typing.HasType ⟨r, G⟩ C e t) :
    Yields r e (computed r e) := by
  rintro c rfl s
  obtain ⟨v, s', hv, -⟩ := always_valueOf (lowers_expr c C t e ht).always s
  exact ⟨v, s', hv, fun p rt f m hr hpc => gives_constant h hv hr hpc⟩

end MiniC.Lowering

namespace MiniC

open Evaluation (AsFolded DividesAlike InRange computed folds_of_constant)
open Lowering (Static.image Yields)
open Syntax (CompilationUnit Expr)
open Typing (Node)

/-- A constant that initializes a scalar is stored with the scalar's width. -/
theorem Lowering.Static.read_image {r : Registry} {ty : TypeId} {access : Access} {e : Expr}
    {v : Int64} (hc : r.Consistent) (ha : r.access? ty = some access) (hv : e.constant? = some v) :
    ∃ bytes, image r ty (.expr e) = .ok bytes ∧ bytes.length = access.size ∧
      Bytes.extend access.size access.signed (Bytes.readNat bytes.toArray 0 access.size) =
        Evaluation.convert r v ty := by
  have hsingle (bytes : Array UInt8) : single r ty 0 e bytes =
      .ok (Bytes.writeWord bytes 0 v.toUInt64 access.size) := by
    unfold single
    split
    · rename_i hty _
      simp [Registry.access?, hty] at ha
    · rw [scalar, hv, ha]
  have hsize := (hc.access_size ha).1
  refine ⟨(Bytes.writeWord (Array.replicate (r.sizeOf ty) 0) 0 v.toUInt64 access.size).toList,
    ?_, ?_, ?_⟩
  · rw [image, fill, hsingle]
    rfl
  · simp [hsize]
  · rw [Evaluation.convert, ha, Bytes.readNat_writeWord (by simp [hsize]),
      Bytes.extend_toNat (hc.access_le ha)]

/-- For a constant expression that stands anywhere in an accepted source there is code, which comes to
the constant that the operators make at their types. Where no word with a sign is divided as one
without, all operators come to what they were folded to exactly if all of these values fit their types;
and if all do, the code comes to the value to which the whole was folded. That value, reduced to the
type of the object, is what a scalar holds that the expression initializes before the program runs. -/
theorem Compilation.code_of_constant {layout : Layout.Config} {source : String}
    {tree : CompilationUnit} {registry : Registry}
    (h : (do check layout (← parse source)) = .ok (tree, registry)) {e : Expr}
    (he : .expr e ∈ Node.ofUnit tree) {v : Int64} (hv : e.constant? = some v) :
    Yields registry e (computed registry e) ∧
      ((∀ d ∈ e.operations, DividesAlike registry d) →
        ((∀ d ∈ e.operations, AsFolded registry d) ↔ ∀ d ∈ e.operations, InRange registry d)) ∧
      ((∀ d ∈ e.operations, AsFolded registry d) → computed registry e = .ok v) ∧
      ∀ ty access, registry.access? ty = some access →
        ∃ bytes, Static.image registry ty (.expr e) = .ok bytes ∧ bytes.length = access.size ∧
          Bytes.extend access.size access.signed (Bytes.readNat bytes.toArray 0 access.size) =
            Evaluation.convert registry v ty := by
  obtain ⟨u, -, hcheck⟩ := Machine.except_bind_eq_ok.mp h
  obtain ⟨herrors, rfl, rfl⟩ := accepted_of_check hcheck
  obtain ⟨G, hsound, hunit⟩ := Typing.judged_of_analyze herrors
  have hfolds := folds_of_constant hv
  obtain ⟨C, t, ht⟩ := Typing.sensible_unit hunit _ he
  refine ⟨Lowering.yields_computed hfolds ht, fun hdivides => ?_, fun hall => ?_,
    fun ty access ha => ?_⟩
  · exact hfolds.asFolded_iff_inRange hsound.consistent ht hdivides
  · exact hfolds.computed_eq hall
  · exact Lowering.Static.read_image hsound.consistent ha hv

/-- The constant expressions of a tree that have the value. -/
def Compilation.constantsOf (tree : CompilationUnit) (v : Int64) : List Expr :=
  (Node.ofUnit tree).filterMap fun
    | .expr e => if e.constant? = some v then some e else none
    | _ => none

theorem Compilation.mem_of_constantsOf {tree : CompilationUnit} {v : Int64} {e : Expr}
    (h : e ∈ constantsOf tree v) : .expr e ∈ Node.ofUnit tree ∧ e.constant? = some v := by
  obtain ⟨node, hnode, heq⟩ := List.mem_filterMap.mp h
  cases node with
  | expr d =>
    dsimp only at heq
    split at heq
    · obtain rfl := Option.some.inj heq
      exact ⟨hnode, ‹_›⟩
    · cases heq
  | var | function => cases heq

/-- A quotient of a folded size. -/
theorem Compilation.code_of_quotient :
    ∃ tree registry e, (do check ⟨.lp64, 64⟩ (← parse
        "unsigned long f(void) { return (sizeof(int) + 7) / 5; }")) = .ok (tree, registry) ∧
      .expr e ∈ Node.ofUnit tree ∧ e.constant? = some 2 ∧ Yields registry e (.ok 2) := by
  have hrun : ((do check ⟨.lp64, 64⟩ (← parse
      "unsigned long f(void) { return (sizeof(int) + 7) / 5; }")).toOption.map
      fun x : CompilationUnit × Registry => (constantsOf x.1 2).map fun e : Expr =>
        e.operations.all fun d => (computed x.2 d).toOption == d.constant?) = some [true] := by
    decide +kernel
  obtain ⟨⟨tree, registry⟩, hcheck, hrun⟩ := Option.map_eq_some_iff.mp hrun
  obtain ⟨e, he, hall⟩ := List.map_eq_singleton_iff.mp hrun
  obtain ⟨hmem, hv⟩ := mem_of_constantsOf (he ▸ List.mem_cons_self : e ∈ constantsOf tree 2)
  obtain ⟨hcode, -, hfolded, -⟩ := code_of_constant (ok_of_toOption hcheck) hmem hv
  have hvalue : computed registry e = .ok 2 := by
    refine hfolded fun d hd n hn => ?_
    have hfolds := beq_iff_eq.mp (List.all_eq_true.mp hall d hd)
    exact ok_of_toOption (hfolds.trans hn)
  rw [hvalue] at hcode
  exact ⟨tree, registry, e, ok_of_toOption hcheck, hmem, hv, hcode⟩

/-- A folded size is without a sign, and the quotient of a difference below zero is not the folded one:
the global holds 0, and the code of its initial value comes to the largest word. -/
theorem Compilation.code_of_quotient_below_zero :
    ∃ tree registry e, (do check ⟨.lp64, 64⟩ (← parse
        "unsigned long n = (sizeof(int) - 5) / 2; unsigned long f(void) { return n; }")) =
        .ok (tree, registry) ∧
      .expr e ∈ Node.ofUnit tree ∧ e.constant? = some 0 ∧
      (Lowering.lower registry tree).toOption.map (fun m : Code.Module =>
        m.globals.map Code.Global.image) = some [some (List.replicate 8 0)] ∧
      Yields registry e (.ok 9223372036854775807) := by
  have hrun : ((do check ⟨.lp64, 64⟩ (← parse
      "unsigned long n = (sizeof(int) - 5) / 2; unsigned long f(void) { return n; }")).toOption.map
      fun x : CompilationUnit × Registry =>
        ((constantsOf x.1 0).map fun e => (computed x.2 e).toOption,
          (Lowering.lower x.2 x.1).toOption.map fun m : Code.Module =>
            m.globals.map Code.Global.image)) =
      some ([some (9223372036854775807 : Int64)], some [some (List.replicate 8 0)]) := by
    decide +kernel
  obtain ⟨⟨tree, registry⟩, hcheck, hrun⟩ := Option.map_eq_some_iff.mp hrun
  obtain ⟨hrun, hglobals⟩ := Prod.mk.inj hrun
  obtain ⟨e, he, hcomputed⟩ := List.map_eq_singleton_iff.mp hrun
  obtain ⟨hmem, hv⟩ := mem_of_constantsOf (he ▸ List.mem_cons_self : e ∈ constantsOf tree 0)
  refine ⟨tree, registry, e, ok_of_toOption hcheck, hmem, hv, hglobals, ?_⟩
  rw [← ok_of_toOption hcomputed]
  obtain ⟨u, -, hcheck⟩ := Machine.except_bind_eq_ok.mp (ok_of_toOption hcheck)
  obtain ⟨herrors, rfl, rfl⟩ := accepted_of_check hcheck
  obtain ⟨G, -, hunit⟩ := Typing.judged_of_analyze herrors
  obtain ⟨C, t, ht⟩ := Typing.sensible_unit hunit _ hmem
  exact Lowering.yields_computed (folds_of_constant hv) ht

end MiniC
