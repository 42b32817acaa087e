import MiniC.Proofs.Evaluation.Address
import MiniC.Proofs.Simulation.Binding
/-!
The code of trees. Main statement: by induction over the tree, the code of every expression and every
statement runs as the tree is evaluated.
-/
namespace MiniC.Simulation

open Code (Inst Label Operand Temp)
open Evaluation (Action Context Counters Denoted Exit Resolve Scopes Store)
open Lowering (Agrees Extends Gives Grows Lower Lowered Place Plain bind_eq_ok emit_eq_ok need_eq_ok
  pure_eq_ok)
open Machine (Frame Kept next tick)
open Syntax

section Values

variable {M : Setting} {targets : Option (Label × Label)} {scopes : Scopes}

theorem Runs.value {code : Lower Operand} {sem : Resolve (Action Int64)}
    (h : Runs M targets scopes code sem (Value M)) :
    Runs M targets scopes (Lowered.value <$> code) (do let x ← sem; return Denoted.value <$> x)
      (Denoting M) :=
  h.map fun _ _ _ _ hv => hv

theorem Runs.place {ty : TypeId} {code : Lower Place} {sem : Resolve (Action Int64)}
    (h : Runs M targets scopes code sem (Located M ty)) :
    Runs M targets scopes (Lowered.place <$> code)
      (do let x ← sem; return Denoted.object ty <$> x) (Denoting M) :=
  h.map fun _ _ _ _ hp => hp

/-- Code that is not lowered does anything. -/
theorem runs_throw {α β : Type} {e : LoweringError} {sem : Resolve (Action β)}
    {R : α → Nat → β → Frame → Prop} : Runs M targets scopes (throw e) sem R :=
  fun _ _ _ _ hrun _ => absurd hrun Lowering.throw_ne_ok

theorem runs_needed {α β γ : Type} {e : LoweringError} {o : Option γ}
    {next : γ → Lower α} {sem : Resolve (Action β)} {R : α → Nat → β → Frame → Prop}
    (h : ∀ x, o = some x → Runs M targets scopes (next x) sem R) :
    Runs M targets scopes (do next (← Lowering.need e o)) sem R := by
  intro s a s' k hrun hk
  obtain ⟨x, t, hneed, hrun⟩ := bind_eq_ok.mp hrun
  obtain ⟨hx, rfl⟩ := need_eq_ok.mp hneed
  exact h x hx hrun hk

theorem runs_pointed {code : Lower Operand} {sem : Resolve (Action Int64)} (offset : Int64)
    (ty : TypeId) {φ : Int64 → Int64} (hφ : ∀ b, φ b = b + offset)
    (h : Runs M targets scopes code sem (Value M)) :
    Runs M targets scopes (do return .place ⟨← code, offset, ty⟩)
      (do let x ← sem; return (fun b => Denoted.object ty (φ b)) <$> x) (Denoting M) := by
  refine (h.map (φ := fun v => Lowered.place ⟨v, offset, ty⟩)
    (ψ := fun b => Denoted.object ty (φ b)) (T := Denoting M) fun v n b f hv => ?_).of_eq rfl
      fun _ => rfl
  refine ⟨rfl, ?_⟩
  rw [hφ]
  exact locates_of_yields hv offset ty

theorem runs_addressOf {code : Lower Place} {sem : Resolve (Action (TypeId × Int64))}
    (h : Runs M targets scopes code sem (Object M)) :
    Runs M targets scopes (do Lowered.value <$> (← code).address)
      (do let x ← sem; return (fun p => Denoted.value p.2) <$> x) (Denoting M) := by
  refine (h.andThen (T := Denoting M) (k := fun p => return Denoted.value p.2) (fun p => ?_)
    (fun p => (Lowering.grows_address p).map) ?_).of_eq rfl fun _ => rfl
  · intro s a s' hrun
    obtain ⟨v, hv, -⟩ := Lowering.map_eq_ok.mp hrun
    exact Lowering.plain_address p s v s' hv
  · intro p x s a s' st f m hrun hM hat hp
    obtain ⟨v, hv, rfl⟩ := Lowering.map_eq_ok.mp hrun
    obtain ⟨g, u, hgo, hpc, hv⟩ := meets_lift targets hat.toStands
      (gives_address hv hM hat.toStands hat.pc hp.2)
    exact ⟨g, u, hgo, hpc, hv⟩

end Values

/-- The value of a comma expression, after the values before it. -/
def RunsLast (M : Setting) (targets : Option (Label × Label)) (scopes : Scopes)
    (code : Operand → Lower Operand) (sem : Resolve (Int64 → Action Int64)) : Prop :=
  ∀ ⦃last s v s' k⦄, code last s = .ok (v, s') → Agrees scopes k s →
    Agrees scopes (sem k).2 s' ∧ Extends id s s' ∧
      (M.Hosts s' → ∀ ⦃w st f m⦄, At M scopes s st f m → Yields M s.temps last w f →
        Meets M targets s.temps f m st (Lands s' (Value M v s'.temps)) ((sem k).1 w st))

section Last

variable {M : Setting} {targets : Option (Label × Label)} {scopes : Scopes}

theorem runsLast_nil : RunsLast M targets scopes (fun last => return last)
    (return fun w => return w) := by
  intro last s v s' k hrun hk
  obtain ⟨rfl, rfl⟩ := pure_eq_ok.mp hrun
  exact ⟨hk, .refl id s, fun _ w st f m hat hv => meets_pure hat.toStands hat.pc hv⟩

theorem RunsLast.cons {code : Lower Operand} {next : Operand → Lower Operand}
    {sem : Resolve (Action Int64)} {semn : Resolve (Int64 → Action Int64)}
    (h : Runs M targets scopes code sem (Value M)) (h' : RunsLast M targets scopes next semn) :
    RunsLast M targets scopes (fun _ => do next (← code)) (do
      let v ← sem
      let rest ← semn
      return fun _ => do rest (← v)) := by
  intro last s v s' k hrun hk
  obtain ⟨a, t, hcode, hrun⟩ := bind_eq_ok.mp hrun
  have hs := h hcode hk
  obtain ⟨hk', hgrow, hmeets⟩ := h' hrun hs.agrees
  refine ⟨hk', hs.grows.trans hgrow, fun hM w st f m hat hv => ?_⟩
  refine (hs.meets (hM.before hgrow) hat).seq hat hs.grows.temps fun b st₁ g u hat₁ _ hb => ?_
  exact hmeets hM hat₁ hb

theorem RunsLast.run {next : Operand → Lower Operand} {semn : Resolve (Int64 → Action Int64)}
    (h : RunsLast M targets scopes next semn) (w : Int64) :
    Runs M targets scopes (next (.const w)) (do let last ← semn; return last w) (Value M) := by
  intro s v s' k hrun hk
  obtain ⟨hk', hgrow, hmeets⟩ := h hrun hk
  exact ⟨hk', hgrow, fun hM st f m hat => hmeets hM hat (yields_const M _ w f)⟩

theorem blockValue_cons (c : Lowering.Context) (c' : Context) (i : BlockItem)
    (is : List BlockItem) :
    Lowering.blockValue c (i :: is) = (do Lowering.blockItem c i; Lowering.blockValue c is) ∧
      Evaluation.blockValue c' (i :: is) = (do
        let (first, scopes) ← Evaluation.blockItem c' i
        let rest ← Evaluation.blockValue { c' with scopes } is
        return do
          first
          rest) ∨
    ∃ e span, i = .statement ⟨.expr e, span⟩ ∧ is = [] := by
  by_cases hlast : ∃ e span, i = .statement ⟨.expr e, span⟩ ∧ is = []
  · exact .inr hlast
  refine .inl ⟨?_, ?_⟩
  · rcases Lowering.blockValue_cons c i is with h | ⟨e, span, hi, his, -⟩
    · exact h
    · exact absurd ⟨e, span, hi, his⟩ hlast
  · exact (Evaluation.blockValue_cons c' i is).resolve_right hlast

/-- The type of a place has no part in where it is. -/
theorem Locates.cast {p : Place} {n : Nat} {address : Int64} {f : Frame}
    (h : Locates M n p address f) (ty : TypeId) : Locates M n { p with ty } address f :=
  ⟨h.base⟩

end Last

mutual

theorem runs_expr {M : Setting} {targets : Option (Label × Label)} {c : Context}
    (h : Fits M targets c) : ∀ e, Runs M targets c.scopes
      (Lowering.expr (inCode c targets) e) (Evaluation.expr c e) (Denoting M)
  | ⟨_, _, none⟩ => by
    rw [Lowering.expr]
    exact runs_throw
  | ⟨kind, _, some ty⟩ => by
    rw [Lowering.expr, Evaluation.expr]
    exact runs_exprKind h ty kind

theorem runs_exprKind {M : Setting} {targets : Option (Label × Label)} {c : Context}
    (h : Fits M targets c) (ty : TypeId) : ∀ k, Runs M targets c.scopes
      (Lowering.exprKind (inCode c targets) ty k) (Evaluation.exprKind c ty k) (Denoting M)
  | .integer n => by
    rw [Lowering.exprKind, Evaluation.exprKind]
    exact runs_pure fun n' f => yields_const M n' n f
  | .character b => by
    rw [Lowering.exprKind, Evaluation.exprKind]
    exact runs_pure fun n f => yields_const M n (characterValue b) f
  | .string text => by
    rw [Lowering.exprKind, Evaluation.exprKind]
    exact runs_text h text
  | .name name => by
    rw [Lowering.exprKind, Evaluation.exprKind]
    exact runs_named h ty name
  | .binary op left right => by
    have hl := runs_valueOf c.registry (runs_expr h left)
    have hr := runs_valueOf c.registry (runs_expr h right)
    rw [Lowering.exprKind, Evaluation.exprKind]
    by_cases hop : op.isLogical
    · simp only [hop, if_true]
      exact (runs_logical hl hr).value.of_eq rfl fun _ => rfl
    · simp only [hop, Bool.false_eq_true, if_false]
      exact (runs_binary c.registry op left right hl hr).value.of_eq
        (by simp only [map_bind]; rfl) fun _ => rfl
  | .unary op operand => by
    have hv := runs_valueOf c.registry (runs_expr h operand)
    rw [Lowering.exprKind, Evaluation.exprKind]
    exact (runs_unary c.registry op hv).value.of_eq (by simp only [map_bind]; rfl)
      fun _ => rfl
  | .assign none target source => by
    have hs := runs_valueOf c.registry (runs_expr h source)
    have ht := runs_placeOf target (runs_expr h target)
    rw [Lowering.exprKind, Evaluation.exprKind]
    by_cases hstruct : c.registry.isStruct ty
    · simp only [inCode, hstruct, if_true]
      exact (runs_assignStruct c.registry hs ht).value.of_eq rfl fun _ => rfl
    · simp only [inCode, hstruct, Bool.false_eq_true, if_false]
      exact (runs_assignScalar c.registry hs ht).value.of_eq rfl fun _ => rfl
  | .assign (some op) target source => by
    have hs := runs_valueOf c.registry (runs_expr h source)
    have ht := runs_placeOf target (runs_expr h target)
    rw [Lowering.exprKind, Evaluation.exprKind]
    by_cases hstruct : c.registry.isStruct ty
    · simp only [inCode, hstruct, if_true]
      exact (runs_assignStruct c.registry hs ht).value.of_eq rfl fun _ => rfl
    · simp only [inCode, hstruct, Bool.false_eq_true, if_false]
      exact (runs_assignCompound c.registry op source hs ht).value.of_eq rfl fun _ => rfl
  | .conditional cond yes no => by
    have hc := runs_valueOf c.registry (runs_expr h cond)
    have hy := runs_converted c.registry ty (runs_valueOf c.registry (runs_expr h yes))
    have hn := runs_converted c.registry ty (runs_valueOf c.registry (runs_expr h no))
    rw [Lowering.exprKind, Evaluation.exprKind]
    exact (runs_conditional hc hy hn).value.of_eq rfl fun _ => rfl
  | .call callee args => by
    rw [Lowering.exprKind, Evaluation.exprKind]
    exact (runs_call h.call ty callee (runs_values h args)).value.of_eq rfl fun _ => rfl
  | .index array index => by
    have ha := runs_elementsOf c.registry array ty (runs_expr h array)
    have hi := runs_valueOf c.registry (runs_expr h index)
    have hcode : Lowering.exprKind (inCode c targets) ty (.index array index) =
        Lowered.place <$> (do
          let element ← elementsCode c.registry array ty (Lowering.expr (inCode c targets) array)
          Lowering.subscript element (Int64.ofNat (c.registry.sizeOf ty)) index.constant?
            (Lowering.valueOf c.registry (Lowering.expr (inCode c targets) index))) := by
      rw [Lowering.exprKind]
      simp only [elementsCode, inCode_registry, map_bind, bind_assoc]
      refine congrArg _ (funext fun t => ?_)
      by_cases harray : c.registry.isArray t
      · simp only [harray, if_true]
      · simp only [harray, Bool.false_eq_true, if_false, bind_assoc]
    rw [hcode, Evaluation.exprKind]
    cases index.constant? with
    | some i => exact (runs_constantSubscript i ha).place.of_eq rfl fun _ => rfl
    | none => exact (runs_subscript ha hi).place.of_eq rfl fun _ => rfl
  | .member object field resolved => by
    have ho := runs_expr h object
    rw [Lowering.exprKind, Evaluation.exprKind]
    refine runs_needed fun m hm => ?_
    subst hm
    have hs := runs_storageOf ho (Int64.ofNat m.offset) m.ty
    exact (hs.map (ψ := fun address => Denoted.object m.ty (address + Int64.ofNat m.offset))
      fun _ _ _ _ hp => hp).of_eq rfl fun _ => rfl
  | .pointerMember pointer field resolved => by
    have hp := runs_valueOf c.registry (runs_expr h pointer)
    rw [Lowering.exprKind, Evaluation.exprKind]
    refine runs_needed fun m hm => ?_
    subst hm
    exact (runs_pointed (Int64.ofNat m.offset) m.ty (fun _ => rfl) hp).of_eq rfl fun _ => rfl
  | .cast _ operand => by
    have hv := runs_valueOf c.registry (runs_expr h operand)
    rw [Lowering.exprKind, Evaluation.exprKind]
    exact (runs_cast c.registry hv).value.of_eq (by simp only [map_bind]; rfl)
      fun _ => rfl
  | .query _ _ => by
    rw [Lowering.exprKind]
    exact runs_throw
  | .typeQuery _ _ => by
    rw [Lowering.exprKind]
    exact runs_throw
  | .addressOf operand => by
    have hp := runs_placeOf operand (runs_expr h operand)
    rw [Lowering.exprKind, Evaluation.exprKind]
    exact (runs_addressOf hp).of_eq rfl fun _ => rfl
  | .deref pointer => by
    have hp := runs_valueOf c.registry (runs_expr h pointer)
    rw [Lowering.exprKind, Evaluation.exprKind]
    exact (runs_pointed 0 ty (fun b => (Int64.add_zero b).symm) hp).of_eq rfl fun _ => rfl
  | .step operand decrement yieldsOld => by
    have hp := runs_placeOf operand (runs_expr h operand)
    rw [Lowering.exprKind, Evaluation.exprKind]
    exact (runs_step c.registry decrement yieldsOld hp).value.of_eq rfl fun _ => rfl
  | .comma items => by
    rw [Lowering.exprKind, Evaluation.exprKind]
    exact ((runs_lastValue h items).run 0).value.of_eq rfl fun _ => rfl
  | .block ⟨items, _⟩ => by
    have hb := runs_blockValue (h.within ([] :: c.scopes)) items
    rw [Lowering.exprKind, Evaluation.exprKind]
    exact (runs_inScope hb).value.of_eq rfl fun _ => rfl

theorem runs_values {M : Setting} {targets : Option (Label × Label)} {c : Context}
    (h : Fits M targets c) : ∀ es, Runs M targets c.scopes
      (Lowering.values (inCode c targets) es) (Evaluation.values c es) (Values M)
  | [] => by
    rw [Lowering.values, Evaluation.values]
    exact runs_pure fun _ _ => .nil
  | e :: es => by
    have he := runs_valueOf c.registry (runs_expr h e)
    have hes := runs_values h es
    rw [Lowering.values, Evaluation.values]
    refine (he.andThen₂ hes (Q := Values M)
      (k := fun w ws => return w :: ws) (stable_value M) (fun _ _ => .pure _) (fun _ _ => .pure _)
      ?_).of_eq rfl fun _ => rfl
    intro v vs w ws s a s' st f m hrun hM hat hv hvs
    obtain ⟨rfl, rfl⟩ := pure_eq_ok.mp hrun
    exact meets_pure hat.toStands hat.pc (.cons hv hvs)

theorem runs_lastValue {M : Setting} {targets : Option (Label × Label)} {c : Context}
    (h : Fits M targets c) : ∀ es, RunsLast M targets c.scopes
      (fun last => Lowering.lastValue (inCode c targets) last es) (Evaluation.lastValue c es)
  | [] => by
    simp only [Lowering.lastValue, Evaluation.lastValue]
    exact runsLast_nil
  | e :: es => by
    have he := runs_valueOf c.registry (runs_expr h e)
    simp only [Lowering.lastValue, Evaluation.lastValue]
    exact RunsLast.cons he (runs_lastValue h es)

theorem runs_blockValue {M : Setting} {targets : Option (Label × Label)} {c : Context}
    (h : Fits M targets c) : ∀ is, RunsInside M targets c.scopes
      (Lowering.blockValue (inCode c targets) is) (Evaluation.blockValue c is) (Value M)
  | [] => by
    rw [Lowering.blockValue, Evaluation.blockValue]
    exact (runs_pure fun n f => yields_const M n 0 f).inside
  | i :: is => by
    have hi := runs_blockItem h i
    have his scopes := runs_blockValue (h.within scopes) is
    have hlast := @runs_itemValue M targets c h i
    rcases blockValue_cons (inCode c targets) c i is with ⟨hcode, hsem⟩ | ⟨e, span, rfl, rfl⟩
    · rw [hcode, hsem]
      exact (hi.andThen his).of_eq rfl fun _ => rfl
    · rw [Lowering.blockValue, Evaluation.blockValue]
      exact (hlast rfl).inside

/-- The last item of a block, if it is an expression. -/
theorem runs_itemValue {M : Setting} {targets : Option (Label × Label)} {c : Context}
    (h : Fits M targets c) : ∀ (i : BlockItem) {e span}, i = .statement ⟨.expr e, span⟩ →
      Runs M targets c.scopes (Lowering.valueOf c.registry (Lowering.expr (inCode c targets) e))
        (Evaluation.valueOf c.registry <$> Evaluation.expr c e) (Value M)
  | .statement ⟨.expr e, _⟩, _, _, rfl => runs_valueOf c.registry (runs_expr h e)

theorem runs_blockItems {M : Setting} {targets : Option (Label × Label)} {c : Context}
    (h : Fits M targets c) : ∀ is, RunsInside M targets c.scopes
      (Lowering.blockItems (inCode c targets) is) (Evaluation.blockItems c is)
      (Silent (α := Unit) (β := Unit))
  | [] => by
    rw [Lowering.blockItems, Evaluation.blockItems]
    exact (runs_pure fun _ _ => trivial).inside
  | i :: is => by
    have hi := runs_blockItem h i
    have his scopes := runs_blockItems (h.within scopes) is
    rw [Lowering.blockItems, Evaluation.blockItems]
    exact (hi.andThen his).of_eq rfl fun _ => rfl

theorem runs_blockItem {M : Setting} {targets : Option (Label × Label)} {c : Context}
    (h : Fits M targets c) : ∀ i, RunsDeclaring M targets c.scopes
      (Lowering.blockItem (inCode c targets) i) (Evaluation.blockItem c i)
  | .statement s => by
    rw [Lowering.blockItem, Evaluation.blockItem]
    exact (runs_stmt h s).declaring
  | .declaration d => by
    rw [Lowering.blockItem, Evaluation.blockItem]
    exact runs_declaration h d

theorem runs_stmt {M : Setting} {targets : Option (Label × Label)} {c : Context}
    (h : Fits M targets c) : ∀ s, Runs M targets c.scopes
      (Lowering.stmt (inCode c targets) s) (Evaluation.stmt c s) (Silent (α := Unit) (β := Unit))
  | ⟨kind, _⟩ => by
    rw [Lowering.stmt, Evaluation.stmt]
    exact runs_stmtKind h kind

theorem runs_stmtKind {M : Setting} {targets : Option (Label × Label)} {c : Context}
    (h : Fits M targets c) : ∀ k, Runs M targets c.scopes
      (Lowering.stmtKind (inCode c targets) k) (Evaluation.stmtKind c k)
      (Silent (α := Unit) (β := Unit))
  | .expr e => by
    rw [Lowering.stmtKind, Evaluation.stmtKind]
    exact (runs_valueOf c.registry (runs_expr h e)).ignored.of_eq rfl fun _ => rfl
  | .empty => by
    rw [Lowering.stmtKind, Evaluation.stmtKind]
    exact runs_pure fun _ _ => trivial
  | .block ⟨items, _⟩ => by
    rw [Lowering.stmtKind, Evaluation.stmtKind]
    exact runs_inScope (runs_blockItems (h.within ([] :: c.scopes)) items)
  | .if_ cond yes none => by
    have hc := runs_valueOf c.registry (runs_expr h cond)
    rw [Lowering.stmtKind, Evaluation.stmtKind]
    exact (runs_ifOnly hc (runs_stmt h yes)).of_eq rfl fun _ => rfl
  | .if_ cond yes (some no) => by
    have hc := runs_valueOf c.registry (runs_expr h cond)
    rw [Lowering.stmtKind, Evaluation.stmtKind]
    exact (runs_ifElse hc (runs_stmt h yes) (runs_stmt h no)).of_eq rfl fun _ => rfl
  | .loop kind init cond update body => by
    have hi := runs_loopInit (h.within ([] :: c.scopes)) init
    have ht scopes := runs_test (h.within scopes) cond
    have hb scopes stop next := runs_stmt (h.body scopes stop next) body
    have hu scopes := runs_effect (h.within scopes) update
    rw [Lowering.stmtKind, Evaluation.stmtKind]
    refine runs_inScope ((hi.andThen fun scopes => (runs_loop
      (ht scopes) (hb scopes) (hu scopes)).inside).of_eq rfl fun _ => ?_)
    rw [h.rounds]
    rfl
  | .break_ => by
    rw [Lowering.stmtKind, Evaluation.stmtKind]
    exact runs_leave h (.inl ⟨rfl, rfl⟩)
  | .continue_ => by
    rw [Lowering.stmtKind, Evaluation.stmtKind]
    exact runs_leave h (.inr ⟨rfl, rfl⟩)
  | .return_ none => by
    rw [Lowering.stmtKind, Evaluation.stmtKind]
    exact runs_returnNothing
  | .return_ (some e) => by
    have hv := runs_converted c.registry c.returns (runs_valueOf c.registry (runs_expr h e))
    rw [Lowering.stmtKind, Evaluation.stmtKind]
    exact (runs_return hv).of_eq (by simp only [bind_assoc]; rfl) fun _ => rfl

theorem runs_loopInit {M : Setting} {targets : Option (Label × Label)} {c : Context}
    (h : Fits M targets c) : ∀ i, RunsDeclaring M targets c.scopes
      (Lowering.loopInit (inCode c targets) i) (Evaluation.loopInit c i)
  | none => by
    rw [Lowering.loopInit, Evaluation.loopInit]
    exact (runs_pure (a := ()) (b := ()) fun _ _ => trivial).declaring.of_eq rfl fun _ => rfl
  | some (.expr e) => by
    rw [Lowering.loopInit, Evaluation.loopInit]
    exact (runs_valueOf c.registry (runs_expr h e)).ignored.declaring.of_eq rfl fun _ => rfl
  | some (.declaration d) => by
    rw [Lowering.loopInit, Evaluation.loopInit]
    exact runs_declaration h d

theorem runs_test {M : Setting} {targets : Option (Label × Label)} {c : Context}
    (h : Fits M targets c) : ∀ e, Tests M targets c.scopes
      (Lowering.test (inCode c targets) e) (Evaluation.test c e)
  | none => by
    intro stop s s' k hrun hk
    rw [Lowering.test] at hrun
    rw [Evaluation.test]
    obtain ⟨-, rfl⟩ := pure_eq_ok.mp hrun
    exact ⟨hk, .refl id s, fun _ st f m pos hat _ => ⟨f, m, .refl hat.toStands _, hat.pc⟩⟩
  | some e => by
    have hv := tests_condition (runs_valueOf c.registry (runs_expr h e))
    intro stop s s' k hrun hk
    rw [Lowering.test] at hrun
    rw [Evaluation.test]
    exact hv hrun hk

theorem runs_effect {M : Setting} {targets : Option (Label × Label)} {c : Context}
    (h : Fits M targets c) : ∀ e, Runs M targets c.scopes
      (Lowering.effect (inCode c targets) e) (Evaluation.effect c e)
      (Silent (α := Unit) (β := Unit))
  | none => by
    rw [Lowering.effect, Evaluation.effect]
    exact runs_pure fun _ _ => trivial
  | some e => by
    rw [Lowering.effect, Evaluation.effect]
    exact (runs_valueOf c.registry (runs_expr h e)).ignored.of_eq rfl fun _ => rfl

theorem runs_declaration {M : Setting} {targets : Option (Label × Label)} {c : Context}
    (h : Fits M targets c) : ∀ d, RunsDeclaring M targets c.scopes
      (Lowering.declaration (inCode c targets) d) (Evaluation.declaration c d)
  | ⟨.vars vars, _⟩ => by
    rw [Lowering.declaration, Evaluation.declaration]
    exact runs_varDecls h vars
  | ⟨.struct _, _⟩ => by
    rw [Lowering.declaration, Evaluation.declaration]
    exact (runs_pure (a := ()) (b := ()) fun _ _ => trivial).declaring.of_eq rfl fun _ => rfl

theorem runs_varDecls {M : Setting} {targets : Option (Label × Label)} {c : Context}
    (h : Fits M targets c) : ∀ vs, RunsDeclaring M targets c.scopes
      (Lowering.varDecls (inCode c targets) vs) (Evaluation.varDecls c vs)
  | [] => by
    rw [Lowering.varDecls, Evaluation.varDecls]
    exact (runs_pure (a := ()) (b := ()) fun _ _ => trivial).declaring.of_eq rfl fun _ => rfl
  | v :: vs => by
    have hv := runs_localVar h v
    have hvs scopes := runs_varDecls (h.within scopes) vs
    rw [Lowering.varDecls, Evaluation.varDecls]
    exact (hv.trans hvs).of_eq rfl fun _ => rfl

theorem runs_localVar {M : Setting} {targets : Option (Label × Label)} {c : Context}
    (h : Fits M targets c) : ∀ v, RunsDeclaring M targets c.scopes
      (Lowering.localVar (inCode c targets) v) (Evaluation.localVar c v)
  | ⟨name, _, init, _, none⟩ => by
    rw [Lowering.localVar.eq_def]
    intro s u s' k hrun
    obtain ⟨ty, t, hneed, -⟩ := bind_eq_ok.mp hrun
    exact absurd (need_eq_ok.mp hneed).1 nofun
  | ⟨name, _, none, _, some ty⟩ => by
    rw [Lowering.localVar, Evaluation.localVar]
    exact (runs_local c.registry fun _ _ => runsFilling_nothing).of_eq rfl fun _ => rfl
  | ⟨name, _, some i, _, some ty⟩ => by
    have hi slot scopes := runs_initializer (h.within scopes) ⟨.temp slot, 0, ty⟩ rfl i
    rw [Lowering.localVar, Evaluation.localVar]
    simp only [Lowering.need, pure_bind]
    by_cases hzero : Lowering.needsZeros c.registry ty i
    · simp only [inCode_registry, hzero, if_true]
      have hfill slot scopes : RunsFilling M targets scopes ⟨.temp slot, 0, ty⟩ (do
          Place.zero c.registry ⟨.temp slot, 0, ty⟩
          Lowering.initializer (inCode c targets) ⟨.temp slot, 0, ty⟩ i) (do
            let fill ← Evaluation.initializer { c with scopes } ty i
            return fun address => do
              Evaluation.zero c.registry ty address
              fill address) :=
        ((runs_zero c.registry ⟨.temp slot, 0, ty⟩).andThen (hi slot scopes)
          (fun _ _ _ hp => hp) (fun _ _ _ hp => hp)).of_eq rfl fun _ => rfl
      exact (runs_local c.registry hfill).of_eq rfl fun _ => rfl
    · simp only [inCode_registry, hzero, Bool.false_eq_true, if_false]
      exact (runs_local c.registry (w := fun scopes => Evaluation.initializer { c with scopes } ty i)
        hi).of_eq rfl fun _ => rfl

theorem runs_initializer {M : Setting} {targets : Option (Label × Label)} {c : Context}
    (h : Fits M targets c) {ty : TypeId} (p : Place) (hp : p.ty = ty) : ∀ i,
      RunsFilling M targets c.scopes p (Lowering.initializer (inCode c targets) p i)
        (Evaluation.initializer c ty i)
  | .expr e => by
    have hv := runs_valueOf c.registry (runs_expr h e)
    rw [Lowering.initializer, Evaluation.initializer]
    subst hp
    exact runs_initialValue c.registry p e hv
  | .list items _ => by
    have helements element := runs_elements h element p items
    have hmembers ms := runs_members h p ms items
    have hfirst := runs_firstItem h p hp items
    rw [Lowering.initializer, Evaluation.initializer]
    subst hp
    rw [inCode_registry]
    cases c.registry.ty p.ty with
    | array element length => exact helements element
    | struct s => exact hmembers _
    | _ => exact hfirst

theorem runs_elements {M : Setting} {targets : Option (Label × Label)} {c : Context}
    (h : Fits M targets c) (element : TypeId) (p : Place) : ∀ is,
      RunsFilling M targets c.scopes p (Lowering.elements (inCode c targets) element p is)
        (Evaluation.elements c element is)
  | [] => by
    rw [Lowering.elements, Evaluation.elements]
    exact runsFilling_nothing
  | i :: is => by
    have hi := runs_initializer h { p with ty := element } rfl i
    have his := runs_elements h element
      (p.further (Int64.ofNat (c.registry.sizeOf element)) p.ty) is
    rw [Lowering.elements, Evaluation.elements]
    exact (hi.andThen his (fun _ _ _ hp => hp.cast element)
      (fun _ _ _ hp => hp.further _ _)).of_eq rfl fun _ => rfl

theorem runs_members {M : Setting} {targets : Option (Label × Label)} {c : Context}
    (h : Fits M targets c) (p : Place) (ms : List Member) : ∀ is,
      RunsFilling M targets c.scopes p (Lowering.members (inCode c targets) p ms is)
        (Evaluation.members c ms is)
  | [] => by
    rw [Lowering.members, Evaluation.members]
    exact runsFilling_nothing
  | i :: is => by
    cases ms with
    | nil =>
      rw [Lowering.members, Evaluation.members]
      exact runsFilling_nothing
    | cons m ms =>
      have hi := runs_initializer h (p.further (Int64.ofNat m.offset) m.ty) rfl i
      have his := runs_members h p ms is
      rw [Lowering.members, Evaluation.members]
      exact (hi.andThen his (fun _ _ _ hp => hp.further _ _) (fun _ _ _ hp => hp)).of_eq rfl
        fun _ => rfl

theorem runs_firstItem {M : Setting} {targets : Option (Label × Label)} {c : Context}
    (h : Fits M targets c) {ty : TypeId} (p : Place) (hp : p.ty = ty) : ∀ is,
      RunsFilling M targets c.scopes p (Lowering.firstItem (inCode c targets) p is)
        (Evaluation.firstItem c ty is)
  | [] => by
    rw [Lowering.firstItem, Evaluation.firstItem]
    exact runsFilling_nothing
  | i :: is => by
    rw [Lowering.firstItem, Evaluation.firstItem]
    exact runs_initializer h p hp i

end

/-- The code for a path gets to a place at the address of the path. -/
theorem runs_address {M : Setting} {targets : Option (Label × Label)} {c : Context}
    (h : Fits M targets c) (e : Expr) : Runs M targets c.scopes
      (Lowering.placeOf e (Lowering.expr (inCode c targets) e)) (Evaluation.address c e)
      (fun p n a g => Locates M n p a g) := by
  rw [Evaluation.address_eq]
  refine ((runs_expr h e).andThen (T := fun p n a g => Locates M n p a g) (k := addressIn) (fun l => ?_) (fun l => ?_) ?_).of_eq rfl fun _ => rfl
  · cases l with
    | place p => exact .pure p
    | value v =>
      intro s a s' hrun
      exact absurd hrun Lowering.throw_ne_ok
  · cases l with
    | place p => exact .pure p
    | value v => exact .throw _
  · intro l d s v s' st f m hrun hM hat hd
    cases l with
    | place p =>
      cases d with
      | object ty a =>
        obtain ⟨rfl, rfl⟩ := pure_eq_ok.mp hrun
        exact meets_pure hat.toStands hat.pc hd.2
      | value w => exact hd.elim
    | value a => exact absurd hrun Lowering.throw_ne_ok

end MiniC.Simulation
