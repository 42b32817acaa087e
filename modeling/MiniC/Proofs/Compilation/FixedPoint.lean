import MiniC.Proofs.Code.FixedPoint
import MiniC.Proofs.Compilation.Optimization
/-!
How far the optimizer gets. Main statement: what it leaves of a function is stable exactly if as many rounds
as its limit are enough, as they are for at most fourteen branches; and optimizing again changes nothing
exactly if all functions are stable.

Folding and pruning look things up in tables. The same round with lists in place of the tables can be
evaluated, which shows a source that more rounds than the limit change.
-/
namespace MiniC

open Code (Inst Module Operand Pass Temp)

namespace Code

/-! Rounds with lists. -/

namespace Fold

def resolveIn (known : List (Temp × Int64)) : Operand → Operand
  | .temp t =>
    match known.lookup t with
    | some n => .const n
    | none => .temp t
  | o => o

/-- What folding makes of the rest of a body. -/
def instsIn (body : List Inst) (known : List (Temp × Int64)) : List Inst → List Inst
  | [] => []
  | i :: rest =>
    match constant? (i.mapOperands (resolveIn known)) with
    | some (dst, n) =>
      .copy dst (.const n) ::
        instsIn body (if body.countP (·.dst? == some dst) = 1 then (dst, n) :: known else known) rest
    | none => (settle (i.mapOperands (resolveIn known))).1 ++ instsIn body known rest

variable {known : Known} {listed : List (Temp × Int64)}

theorem resolve_eq_resolveIn (h : ∀ t : Temp, known[t]? = listed.lookup t) :
    resolve known = resolveIn listed := by
  funext o
  cases o with
  | temp t =>
    cases hlookup : listed.lookup t <;> simp only [resolve, resolveIn, h, hlookup]
  | _ => rfl

theorem insts_eq_instsIn (body : List Inst) (h : ∀ t : Temp, known[t]? = listed.lookup t)
    (rest : List Inst) : (insts (countWrites body) known rest).1 = instsIn body listed rest := by
  induction rest generalizing known listed with
  | nil => rfl
  | cons i rest ih =>
    show (inst _ _ i).insts ++ (insts _ (inst _ _ i).known rest).1 = _
    rw [instsIn]
    cases hconstant : constant? (i.mapOperands (resolveIn listed)) with
    | some x =>
      obtain ⟨dst, n⟩ := x
      rw [inst_of_constant (by rwa [resolve_eq_resolveIn h]), getD_countWrites]
      refine congrArg (_ :: ·) (ih fun t => ?_)
      split
      · rw [Std.HashMap.getElem?_insert, List.lookup_cons, h]
        by_cases ht : dst = t
        · simp [ht]
        · have hne : (t == dst) = false := beq_eq_false_iff_ne.mpr (Ne.symm ht)
          simp [ht, hne]
      · exact h t
    | none =>
      rw [inst_of_not_constant (by rwa [resolve_eq_resolveIn h]), resolve_eq_resolveIn h]
      exact congrArg (_ ++ ·) (ih h)

theorem body_eq_instsIn (b : List Inst) : (body b).1 = instsIn b [] b :=
  insts_eq_instsIn b (fun _ => Std.HashMap.getElem?_empty) b

end Fold

namespace Prune

/-- Repeats what removes instructions until it removes none, or so often. -/
def whileFewer (f : List Inst → List Inst) : Nat → List Inst → List Inst
  | 0, b => b
  | n + 1, b => if (f b).length < b.length then whileFewer f n (f b) else b

def unusedLabelsIn (b : List Inst) : List Inst :=
  b.filter fun i =>
    match i.label? with
    | some l => (b.filterMap Inst.target?).contains l
    | none => true

def unusedOnceIn (b : List Inst) : List Inst :=
  b.filter fun i =>
    match i.dst? with
    | some t => !i.isPure || (b.flatMap fun i => i.operands.filterMap temp?).contains t
    | none => true

def roundIn (b : List Inst) : List Inst :=
  let c := jumpsToNext (unusedLabelsIn (unreachable true b))
  whileFewer unusedOnceIn c.length c

theorem unusedLabels_eq (b : List Inst) : unusedLabels b = unusedLabelsIn b := by
  unfold unusedLabels unusedLabelsIn targets
  refine List.filter_congr fun i _ => ?_
  cases i.label? with
  | none => rfl
  | some l => exact Std.HashSet.contains_ofList

theorem unusedOnce_eq (b : List Inst) : unusedOnce b = unusedOnceIn b := by
  unfold unusedOnce unusedOnceIn reads
  refine List.filter_congr fun i _ => ?_
  cases i.dst? with
  | none => rfl
  | some t => exact congrArg (!i.isPure || ·) Std.HashSet.contains_ofList

theorem unusedResults_eq {n : Nat} {b : List Inst} (h : b.length ≤ n) :
    unusedResults b = whileFewer unusedOnceIn n b := by
  induction n generalizing b with
  | zero =>
    obtain rfl := List.length_eq_zero_iff.mp (Nat.le_zero.mp h)
    exact unusedResults_of_not_lt (Nat.not_lt_zero _)
  | succ n ih =>
    rw [whileFewer, ← unusedOnce_eq]
    split
    · rename_i hlt
      rw [unusedResults_of_lt hlt]
      exact ih (by omega)
    · exact unusedResults_of_not_lt ‹_›

theorem round_eq (b : List Inst) : round b = roundIn b := by
  rw [round, unusedLabels_eq]
  exact unusedResults_eq (Nat.le_refl _)

theorem rounds_eq {n : Nat} {b : List Inst} (h : b.length ≤ n) : rounds b = whileFewer roundIn n b := by
  induction n generalizing b with
  | zero =>
    obtain rfl := List.length_eq_zero_iff.mp (Nat.le_zero.mp h)
    exact rounds_of_not_lt (Nat.not_lt_zero _)
  | succ n ih =>
    rw [whileFewer, ← round_eq]
    split
    · rename_i hlt
      rw [rounds_of_lt hlt]
      exact ih (by omega)
    · exact rounds_of_not_lt ‹_›

end Prune

namespace Pass

def turnIn (b : List Inst) : List Inst :=
  let c := Fold.instsIn b [] b
  Prune.whileFewer Prune.roundIn c.length c

/-- When folding finds nothing to do. -/
theorem unchanged_fold_iff (f : Function) :
    (fold.run f).2 = false ↔ Fold.instsIn f.body [] f.body = f.body := by
  rw [← Fold.body_eq_instsIn]
  exact Fold.unchanged_insts_iff _ _ _

theorem body_turn_eq (f : Function) : (turn f).body = turnIn f.body := by
  rw [body_turn, Fold.body_eq_instsIn]
  exact Prune.rounds_eq (Nat.le_refl _)

theorem body_iterate_turn (n : Nat) (f : Function) : (turn^[n] f).body = turnIn^[n] f.body := by
  induction n generalizing f with
  | zero => rfl
  | succ n ih => rw [Function.iterate_succ_apply, Function.iterate_succ_apply, ih, body_turn_eq]

end Pass

/-! What the optimizer leaves. -/

theorem Module.functions_optimize (m : Module) {level : Nat} (h : 0 < level) :
    (m.optimize level).functions = m.functions.map (Pass.turn^[Pass.maxRounds]) := by
  have hpasses : Pass.ofLevel level = [.fold, .prune] := if_neg h.ne'
  have hrounds : Pass.rounds [.fold, .prune] Pass.maxRounds = Pass.turn^[Pass.maxRounds] :=
    funext (Pass.rounds_eq_iterate _)
  rw [Module.optimize, hpasses, hrounds]
  rfl

/-- At every level above zero, neither pass has anything left to do in what the optimizer leaves of a
function exactly if there is a number of rounds, up to the limit, after which that is so; and there is one
if the function has at most fourteen conditional branches. Optimizing again changes nothing exactly if that
holds of all functions. -/
theorem Module.optimized_stable_iff (m : Module) {level : Nat} (hlevel : 0 < level) :
    List.Forall₂ (fun f g =>
        (Pass.Stable g ↔ ∃ n ≤ Pass.maxRounds, Pass.Stable (Pass.turn^[n] f)) ∧
          (f.branches ≤ 14 → Pass.Stable g))
      m.functions (m.optimize level).functions ∧
    ((m.optimize level).optimize level = m.optimize level ↔
      ∀ g ∈ (m.optimize level).functions, Pass.Stable g) := by
  constructor
  · rw [m.functions_optimize hlevel, List.forall₂_map_right_iff, List.forall₂_same]
    refine fun f _ => ⟨⟨fun h => ⟨_, Nat.le_refl _, h⟩, ?_⟩, fun h => ?_⟩
    · rintro ⟨n, hn, hstable⟩
      obtain ⟨k, hk⟩ := Nat.exists_eq_add_of_le hn
      rw [hk, Nat.add_comm, Function.iterate_add_apply]
      exact hstable.iterate k
    · exact Pass.stable_iterate_turn (Nat.add_le_add_right h 2)
  · have hsame (m' : Module) : m'.optimize level = m' ↔ ∀ g ∈ m'.functions, Pass.Stable g := by
      have hfunctions : m'.optimize level = m' ↔ (m'.optimize level).functions = m'.functions :=
        ⟨congrArg Module.functions, fun h => congrArg (fun fs => { m' with functions := fs }) h⟩
      rw [hfunctions, m'.functions_optimize hlevel]
      constructor
      · intro h g hg
        refine Pass.stable_of_iterate_eq (n := Pass.maxRounds) (by decide) ?_
        have hid := List.map_inj_left.mp (h.trans (List.map_id _).symm) g hg
        exact hid
      · intro h
        refine (List.map_congr_left fun g hg => ?_).trans (List.map_id _)
        exact Function.iterate_fixed (Pass.turn_eq_self_iff.mpr (h g hg)) _
    exact hsame _

end Code

namespace Compilation

/-- A function with one branch, which the optimizer settles. -/
theorem optimized_conditional_stable :
    ∃ plain, ofSource ⟨⟨.lp64, 64⟩, 0⟩ "int f(void) { return 1 ? 2 : 3; }" "f.c" = .ok plain ∧
      (plain.code.functions.map (·.branches) = [1] ∧ 0 < 1) ∧
      (∀ g ∈ (plain.code.optimize 1).functions, Pass.Stable g) ∧
      (plain.code.optimize 1).optimize 1 = plain.code.optimize 1 := by
  have hrun : (ofSource ⟨⟨.lp64, 64⟩, 0⟩ "int f(void) { return 1 ? 2 : 3; }" "f.c").toOption.map
      (fun c => c.code.functions.map (·.branches)) = some [1] := by decide +kernel
  obtain ⟨plain, hplain, hbranches⟩ := Option.map_eq_some_iff.mp hrun
  obtain ⟨heach, hagain⟩ := plain.code.optimized_stable_iff Nat.one_pos
  have hstable : ∀ g ∈ (plain.code.optimize 1).functions, Pass.Stable g := by
    intro g hg
    obtain ⟨n, hn, rfl⟩ := List.getElem_of_mem hg
    have hf : n < plain.code.functions.length := heach.length_eq ▸ hn
    refine (heach.get hf hn).2 ?_
    have hone := List.eq_of_mem_singleton
      (hbranches ▸ List.mem_map_of_mem (f := Code.Function.branches) (List.getElem_mem hf))
    exact hone.le.trans (by decide)
  exact ⟨plain, ok_of_toOption hplain, ⟨hbranches, Nat.one_pos⟩, hstable, hagain.mpr hstable⟩

/-- A conjunction of seventeen, each the left side of the next: a round settles one branch, so folding is
not finished when the limit on rounds is met, and optimizing again gives other code. -/
theorem long_conjunction_unstable :
    ∃ c, ofSource ⟨⟨.lp64, 64⟩, 1⟩
        "int f(void) { return 1&&1&&1&&1&&1&&1&&1&&1&&1&&1&&1&&1&&1&&1&&1&&1&&1; }" "f.c" = .ok c ∧
      (∃ f ∈ c.code.functions, (Pass.fold.run f).2 = true) ∧ c.code.optimize 1 ≠ c.code := by
  have hrun : (ofSource ⟨⟨.lp64, 64⟩, 0⟩
        "int f(void) { return 1&&1&&1&&1&&1&&1&&1&&1&&1&&1&&1&&1&&1&&1&&1&&1&&1; }" "f.c").toOption.map
      (fun c => c.code.functions.map fun f => Pass.turnIn^[Pass.maxRounds] f.body) =
        some [[.copy 0 (.const 1), .cast 32 (.temp 0) ⟨4, true⟩, .ret (some (.temp 32))]] := by
    decide +kernel
  obtain ⟨plain, hplain, hbodies⟩ := Option.map_eq_some_iff.mp hrun
  obtain ⟨f, hfunctions, hbody⟩ := List.map_eq_singleton_iff.mp hbodies
  obtain ⟨g, hg⟩ : ∃ g, g = Pass.turn^[Pass.maxRounds] f := ⟨_, rfl⟩
  have hoptimized : (plain.code.optimize 1).functions = [g] := by
    rw [plain.code.functions_optimize Nat.one_pos, hfunctions, hg]
    rfl
  have hfolds : (Pass.fold.run g).2 = true := by
    rw [← Bool.not_eq_false, Pass.unchanged_fold_iff, hg, Pass.body_iterate_turn, hbody]
    decide +kernel
  have hunstable : Pass.turn g ≠ g :=
    fun hsame => Bool.false_ne_true ((Pass.turn_eq_self_iff.mp hsame .fold).symm.trans hfolds)
  refine ⟨_, ofSource_level (ok_of_toOption hplain) 1, ⟨g, ?_, hfolds⟩, fun hagain => hunstable ?_⟩
  · rw [hoptimized]
    exact List.mem_singleton_self _
  · have hrounds := congrArg Module.functions hagain
    rw [(plain.code.optimize 1).functions_optimize Nat.one_pos, hoptimized] at hrounds
    exact Pass.turn_eq_self_iff.mpr
      (Pass.stable_of_iterate_eq (show 0 < Pass.maxRounds by decide) (List.singleton_inj.mp hrounds))

end Compilation
end MiniC
