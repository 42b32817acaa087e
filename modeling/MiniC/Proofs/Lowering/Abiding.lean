import MiniC.Proofs.Lowering.Extents
import MiniC.Proofs.Typing.Unchanged
import MiniC.Proofs.Typing.Stability
/-!
The code of trees that make sense. A local, a global, a member and a copy reach only into the object
that is named; what a subscript or a pointer reaches is up to the terms. Main statement: the code of
such a tree keeps the terms, if they let all of memory be accessed or the tree follows no pointer.
-/
namespace MiniC.Lowering

open Syntax
open Typing (Env Site HasType HasValue LastValue IsItems IsStmt IsStmt? IsExpr? IsCondition IsReturn
  IsLoopInit IsDecl IsVars Initializes? Initializes InitializesAll Node Passes isAssignable)

/-- Pointers are followed only if that cannot break the terms. -/
def Pact.Allows (M : Pact) (ns : List Node) : Prop := ∀ n ∈ ns, n.isIndirect = true → M.Open

section Rules

variable {M : Pact} {r : Registry} {P : Claim} {t v p : TypeId} {ns ns' : List Node}

theorem Pact.allows_append : M.Allows (ns ++ ns') ↔ M.Allows ns ∧ M.Allows ns' :=
  List.forall_mem_append

theorem Pact.allows_cons {n : Node} :
    M.Allows (n :: ns) ↔ (n.isIndirect = true → M.Open) ∧ M.Allows ns :=
  List.forall_mem_cons

/-- A struct is assigned from its own type only. -/
theorem eq_of_isAssignable {e : Expr} (h : isAssignable r p v e = true) (hp : r.isStruct p = true) :
    v = p := by
  have hscalar : r.isInteger p = false ∧ r.isPointer p = false := by
    unfold Registry.isStruct at hp
    unfold Registry.isInteger Registry.isPointer
    cases hty : r.ty p <;> simp [hty] at hp ⊢
  simp only [isAssignable, hscalar, Bool.false_and, Bool.or_false, beq_iff_eq] at h
  exact h.symm

theorem eq_of_conditionalType {yes no : Expr} {span : Span} {y n : TypeId}
    (hc : r.Consistent) (h : Typing.conditionalType r y n yes no span = .ok t)
    (ht : r.isStruct t = true) : y = t ∧ n = t := by
  have hnot {u : TypeId} (hu : r.isScalar u = true) (htu : u = t) : False := by
    rw [← htu, Registry.isStruct_of_isScalar hu] at ht
    cases ht
  have hpointer {u : TypeId} (hu : r.isPointer u = true) : r.isScalar u = true := by
    simp [Registry.isScalar, hu]
  unfold Typing.conditionalType at h
  split at h
  · rename_i hints
    obtain ⟨hy, hn⟩ := (Bool.and_eq_true _ _).mp hints
    have hint := Typing.isInteger_arithmeticType hc hy hn
    exact (hnot (by simp [Registry.isScalar, hint]) (Except.ok.inj h)).elim
  split at h
  · rename_i heq
    cases h
    exact ⟨rfl, heq.symm⟩
  split at h
  · rename_i hy
    exact (hnot (hpointer ((Bool.and_eq_true _ _).mp hy).1) (Except.ok.inj h)).elim
  split at h
  · rename_i hn
    exact (hnot (hpointer ((Bool.and_eq_true _ _).mp hn).1) (Except.ok.inj h)).elim
  split at h
  · rename_i hy
    exact (hnot (hpointer ((Bool.and_eq_true _ _).mp hy).1) (Except.ok.inj h)).elim
  · cases h

/-- Only scalars are assigned by an operator. -/
theorem isStruct_of_checkCompound {op : BinaryOp} {span : Span}
    (h : Typing.checkCompound r op t v span = .ok ()) : r.isStruct t = false := by
  refine Registry.isStruct_of_isScalar ?_
  unfold Typing.checkCompound at h
  unfold Registry.isScalar
  cases hpointer : r.isPointer t with
  | true => exact Bool.or_true _
  | false =>
    cases hint : r.isInteger t with
    | true => rfl
    | false =>
      simp only [hpointer, hint, Bool.false_eq_true, if_false] at h
      cases h

theorem isStruct_of_checkCast {operandSpan span : Span}
    (h : Typing.checkCast r t v operandSpan span = .ok t) : r.isStruct t = false := by
  unfold Typing.checkCast at h
  split at h
  · exact Registry.isStruct_of_isVoid ‹_›
  split at h
  · exact Registry.isStruct_of_isScalar ‹_›
  · cases h

/-- A value that was reduced to a type fits it, if a struct was one of that type. -/
theorem gives_of_converted {o : Code.Operand} (h : P.Gives (.converted M r t (M.Fits r v) o))
    (hv : r.isStruct t = true → v = t) : P.Gives (.fits M r t o) :=
  h.weaken fun w hw ht => by
    have hfits := hw.1 (Registry.access_eq_none_of_isStruct ht)
    rw [hv ht] at hfits
    exact hfits ht

theorem yields_rest {E : Env} {i : BlockItem} {is : List BlockItem} {span : Span}
    (h : Typing.Yields E ⟨i :: is, span⟩ t)
    (hi : ¬ ∃ e span, i = .statement ⟨.expr e, span⟩ ∧ is = []) :
    Typing.Yields E ⟨is, span⟩ t := by
  cases is with
  | cons j js => simpa only [Typing.Yields, Block.trailing?, List.getLast?_cons_cons] using h
  | nil =>
    have hnone : Block.trailing? ⟨[i], span⟩ = none := by
      unfold Block.trailing?
      simp only [List.getLast?_singleton]
      split
      · rename_i e s heq
        cases heq
        exact absurd ⟨e, s, rfl, rfl⟩ hi
      · rfl
    simp only [Typing.Yields, hnone, Option.bind_none] at h
    exact h

end Rules

section Trees

variable {M : Pact} {G : List Symbol} {C : Site} {t : TypeId}

mutual

theorem emits_expr (c : Context) (hM : M.Sound c.registry c.returns) (C : Site) (t : TypeId) : ∀ e,
    HasType ⟨c.registry, M.globals⟩ C e t → M.Allows (Node.ofExpr e) →
      Emits M c.registry .any C.frames C.frames (expr c e) (Claim.denotes M c.registry t)
  | ⟨kind, span, ty⟩, h, hallows => by
    obtain rfl : ty = some t := h.ty_eq
    rw [Node.ofExpr, Pact.allows_cons] at hallows
    rw [expr]
    exact emits_exprKind c hM C t span kind h hallows.1 hallows.2

theorem emits_value (c : Context) (hM : M.Sound c.registry c.returns) (C : Site) (v : TypeId) : ∀ e,
    HasValue ⟨c.registry, M.globals⟩ C e v → M.Allows (Node.ofExpr e) →
      Emits M c.registry .any C.frames C.frames (valueOf c.registry (expr c e))
        (Claim.fits M c.registry v)
  | ⟨kind, span, ty⟩, .decays h hdecays, hallows => by
    obtain rfl := h.ty_eq
    rw [Node.ofExpr, Pact.allows_cons] at hallows
    rw [expr]
    exact (emits_valueOf hM (emits_exprKind c hM C _ span kind h hallows.1 hallows.2)).mono fun _ =>
      (Claim.gives_right _ _).weaken fun _ hw => M.fits_of_decays hdecays hw

theorem emits_exprKind (c : Context) (hM : M.Sound c.registry c.returns) (C : Site) (t : TypeId)
    (span : Span) : ∀ k, HasType ⟨c.registry, M.globals⟩ C ⟨k, span, some t⟩ t →
      (k.isIndirect = true → M.Open) → M.Allows (Node.ofKind k) →
        Emits M c.registry .any C.frames C.frames (exprKind c t k) (Claim.denotes M c.registry t)
  | .integer n, h, _, _ => by
    rw [exprKind]
    cases h with
    | integer ht => exact .pure (Claim.gives_fits_const n (Registry.isStruct_of_isInteger ht))
  | .character b, h, _, _ => by
    rw [exprKind]
    cases h
    exact .pure (Claim.gives_fits_const _
      (Registry.isStruct_of_isInteger (Typing.isInteger_int hM.consistent (by decide))))
  | .string text, h, _, _ => by
    rw [exprKind]
    cases h with
    | string ht =>
      exact (Emits.addText text).bind fun l => .pure (Claim.gives_fits Claim.gives_data
        (Registry.isStruct_of_ty ht nofun))
  | .name name, h, _, _ => by
    rw [exprKind]
    refine Emits.bind (Q := fun o => .object M c.registry t ⟨o, 0, t⟩) ?_ fun o =>
      .pure (Claim.gives_right _ _)
    cases h with
    | «local» hsym => exact emits_variableAddress hM (.inl hsym)
    | global hnone hmem hname hobject =>
      exact emits_variableAddress hM (.inr ⟨hnone, hmem, hname, hobject⟩)
  | .binary op left right, h, _, hallows => by
    rw [Node.ofKind, Pact.allows_append] at hallows
    rw [exprKind]
    cases h with
    | binary hl hr ht =>
      have hscalar := Registry.isStruct_of_isScalar (Typing.isScalar_binaryType hM.consistent ht)
      have hleft := emits_value c hM C _ left hl hallows.1
      have hright := emits_value c hM C _ right hr hallows.2
      refine .ite (fun _ => ?_) fun _ => ?_
      · exact (emits_logical (hleft.mono fun _ => (Claim.gives_right _ _).word)
          (hright.mono fun _ => (Claim.gives_right _ _).word)).map fun _ =>
            Claim.gives_fits (Claim.gives_right _ _) hscalar
      · refine hleft.bind fun l => hright.always.bind fun r => (emits_typeOf left).bind fun _ =>
          (emits_typeOf right).bind fun _ => ?_
        exact (emits_arithmetic op ((((Claim.gives_right _ _).word.left _).left _).left _) _
          (((Claim.gives_right _ _).word.left _).left _) _ t).map fun _ =>
            Claim.gives_fits (Claim.gives_right _ _) hscalar
  | .unary op operand, h, _, hallows => by
    rw [Node.ofKind] at hallows
    rw [exprKind]
    cases h with
    | unary ho ht =>
      have hscalar := Registry.isStruct_of_isInteger (Typing.isInteger_unaryType hM.consistent ht)
      refine (emits_value c hM C _ operand ho hallows).bind fun _ =>
        (emits_unary _ (Claim.gives_right _ _).word).bind fun _ => ?_
      exact (emits_convert_word (Claim.gives_right _ _) t).map fun _ =>
        Claim.gives_fits (Claim.gives_right _ _) hscalar
  | .assign op target source, h, _, hallows => by
    rw [Node.ofKind, Pact.allows_append] at hallows
    cases h with
    | @assign _ _ _ _ _ v _ ht _ _ hs hassigns =>
      have hsource := emits_value c hM C v source hs hallows.2
      have htarget := emits_placeOf target (emits_expr c hM C t target ht hallows.1)
      cases op with
      | none =>
        rw [exprKind]
        refine .ite (fun hstruct => ?_) fun hscalar => ?_
        · rw [eq_of_isAssignable hassigns hstruct] at hsource
          exact (emits_assignStruct hM hsource htarget hstruct).map fun _ => Claim.gives_right _ _
        · exact (emits_assignScalar hM hsource htarget).map fun _ =>
            Claim.gives_fits (Claim.gives_right _ _) (Bool.eq_false_iff.mpr hscalar)
      | some op =>
        have hscalar := isStruct_of_checkCompound hassigns
        rw [exprKind]
        refine .ite (fun hstruct => absurd hstruct (by rw [hscalar]; decide)) fun _ => ?_
        exact (emits_assignCompound hM op source hsource htarget).map fun _ =>
          Claim.gives_fits (Claim.gives_right _ _) hscalar
  | .conditional cond yes no, h, _, hallows => by
    rw [Node.ofKind, Pact.allows_append, Pact.allows_append] at hallows
    rw [exprKind]
    cases h with
    | conditional hc _ hy hn ht =>
      have hequal := eq_of_conditionalType hM.consistent ht
      have hcond := (emits_value c hM C _ cond hc hallows.1).mono (R := fun o => .word M o)
        fun _ => (Claim.gives_right _ _).word
      have hbranch {e : Expr} {v : TypeId} (hv : c.registry.isStruct t = true → v = t)
          (he : Emits M c.registry .any C.frames C.frames (valueOf c.registry (expr c e))
            (Claim.fits M c.registry v)) :
          Emits M c.registry .any C.frames C.frames
            (do convert c.registry (← valueOf c.registry (expr c e)) t)
            (Claim.fits M c.registry t) :=
        he.bind fun _ => (emits_convert (Claim.gives_right _ _) t).mono fun _ =>
          gives_of_converted (Claim.gives_right _ _) hv
      exact (emits_conditional hcond
        (hbranch (fun h => (hequal h).1) (emits_value c hM C _ yes hy hallows.2.1))
        (hbranch (fun h => (hequal h).2) (emits_value c hM C _ no hn hallows.2.2))).map fun _ =>
          Claim.gives_right _ _
  | .call callee args, h, _, hallows => by
    rw [Node.ofKind] at hallows
    rw [exprKind]
    cases h with
    | call hname _ hmem heq hkind _ hargs =>
      exact (emits_call hM (heq ▸ hname) hmem hkind
        (emits_values c hM C _ args hargs hallows)).map fun _ => Claim.gives_right _ _
  | .index array index, h, hopen, hallows => by
    rw [Node.ofKind, Pact.allows_append] at hallows
    rw [exprKind]
    cases h with
    | index ha hi _ _ =>
      have harray := emits_expr c hM C _ array ha hallows.1
      have hindex := (emits_value c hM C _ index hi hallows.2).mono (R := fun o => .word M o)
        fun _ => (Claim.gives_right _ _).word
      have hrest {P : Claim} (element : Place)
          (he : P.Gives (Claim.object M c.registry t element)) :
          Emits M c.registry P C.frames C.frames
            (.place <$> subscript element (Int64.ofNat (c.registry.sizeOf t)) index.constant?
              (valueOf c.registry (expr c index))) (Claim.denotes M c.registry t) := by
        refine (emits_subscript (hopen rfl) he.place.word _ _ hindex).map fun p T n hP => ?_
        obtain ⟨hty, -⟩ := he T n hP.1
        have hp := hP.2
        rw [show element.ty = t from hty] at hp
        exact hp
      refine (emits_typeOf array).bind fun _ => .ite (fun _ => ?_) fun _ => ?_
      · exact (emits_storageOf_open (hopen rfl) harray.always 0 t).bind fun element =>
          hrest element (Claim.gives_right _ _)
      · refine (emits_valueOf hM harray.always).bind fun v => ?_
        exact hrest ⟨v, 0, t⟩ (gives_object (hopen rfl) (Claim.gives_right _ _).word rfl)
  | .member object field resolved, h, _, hallows => by
    rw [Node.ofKind] at hallows
    rw [exprKind]
    cases h with
    | member ho hm =>
      exact .found <| (emits_storageOf hM (emits_expr c hM C _ object ho hallows) hm).map fun _ =>
        Claim.gives_right _ _
  | .pointerMember pointer field resolved, h, hopen, hallows => by
    rw [Node.ofKind] at hallows
    rw [exprKind]
    cases h with
    | pointerMember hp _ _ =>
      exact .found <| (emits_value c hM C _ pointer hp hallows).bind fun v => .pure
        (gives_object (p := ⟨v, _, _⟩) (hopen rfl) (Claim.gives_right _ _).word rfl)
  | .cast target operand, h, _, hallows => by
    rw [Node.ofKind] at hallows
    rw [exprKind]
    cases h with
    | cast ho ht =>
      exact (emits_value c hM C _ operand ho hallows).bind fun _ =>
        (emits_cast (Claim.gives_right _ _).word).map fun _ =>
          Claim.gives_fits (Claim.gives_right _ _) (isStruct_of_checkCast ht)
  | .query q operand, h, _, _ => nomatch h
  | .typeQuery q target, h, _, _ => nomatch h
  | .addressOf operand, h, _, hallows => by
    rw [Node.ofKind] at hallows
    rw [exprKind]
    cases h with
    | addressOf ho _ ht =>
      refine (emits_placeOf operand (emits_expr c hM C _ operand ho hallows)).bind fun p =>
        (emits_address hM (Claim.gives_right _ _).place).map fun _ => ?_
      exact Claim.gives_fits (Claim.gives_right _ _).word (Registry.isStruct_of_ty ht nofun)
  | .deref pointer, h, hopen, hallows => by
    rw [Node.ofKind] at hallows
    rw [exprKind]
    cases h with
    | deref hp _ =>
      exact (emits_value c hM C _ pointer hp hallows).bind fun v => .pure
        (gives_object (p := ⟨v, _, _⟩) (hopen rfl) (Claim.gives_right _ _).word rfl)
  | .step operand decrement yieldsOld, h, _, hallows => by
    rw [Node.ofKind] at hallows
    rw [exprKind]
    cases h with
    | step ho _ hscalar _ =>
      exact (emits_step hM decrement yieldsOld
        (emits_placeOf operand (emits_expr c hM C t operand ho hallows))).map fun _ =>
          Claim.gives_fits (Claim.gives_right _ _) (Registry.isStruct_of_isScalar hscalar)
  | .comma items, h, _, hallows => by
    rw [Node.ofKind] at hallows
    rw [exprKind]
    cases h with
    | comma hitems =>
      have hvoid : c.registry.isStruct Registry.void = false :=
        Registry.isStruct_of_ty hM.consistent.ty_void nofun
      exact (emits_lastValue c hM C _ _ t items hitems hallows
        (Claim.gives_fits_const 0 hvoid)).map fun _ => Claim.gives_right _ _
  | .block ⟨items, span⟩, h, _, hallows => by
    rw [Node.ofKind] at hallows
    rw [exprKind]
    cases h with
    | block hitems hyields =>
      exact ((emits_blockValue c hM C.inner t span items hitems hyields hallows).inScope
        (grows_blockValue c items)).map fun _ => Claim.gives_right _ _

theorem emits_values (c : Context) (hM : M.Sound c.registry c.returns) (C : Site)
    (params : List TypeId) : ∀ es, Typing.Arguments ⟨c.registry, M.globals⟩ C params es →
      M.Allows (Node.ofExprs es) →
        Emits M c.registry .any C.frames C.frames (values c es) (Claim.passed M c.registry params)
  | [], _, _ => by
    rw [values]
    exact .pure (Claim.gives_any _)
  | e :: es, .cons (t := v) he hpasses hes, hallows => by
    rw [Node.ofExprs, Pact.allows_append] at hallows
    rw [values]
    refine (emits_value c hM C v e he hallows.1).bind fun o =>
      (emits_values c hM C params.tail es hes hallows.2).always.bind fun os => .pure ?_
    intro T n hP
    refine ⟨⟨hP.1.2.1, fun w hw t ht hstruct => ?_⟩, hP.2⟩
    have hfits := hP.1.2.2 w hw
    rw [ht] at hpasses
    rw [eq_of_isAssignable hpasses hstruct] at hfits
    exact hfits hstruct

theorem emits_lastValue (c : Context) (hM : M.Sound c.registry c.returns) (C : Site)
    (last : Code.Operand) (u t : TypeId) : ∀ es, LastValue ⟨c.registry, M.globals⟩ C u es t →
      M.Allows (Node.ofExprs es) → ∀ {P : Claim}, P.Gives (Claim.fits M c.registry u last) →
        Emits M c.registry P C.frames C.frames (lastValue c last es) (Claim.fits M c.registry t)
  | [], h, _, _, hP => by
    rw [lastValue]
    cases h
    exact .pure hP
  | e :: es, .cons (t := v) he hes, hallows, _, _ => by
    rw [Node.ofExprs, Pact.allows_append] at hallows
    rw [lastValue]
    exact (emits_value c hM C v e he hallows.1).always.bind fun o =>
      emits_lastValue c hM C o v t es hes hallows.2 (Claim.gives_right _ _)

theorem emits_blockValue (c : Context) (hM : M.Sound c.registry c.returns) (C : Site) (t : TypeId)
    (span : Span) : ∀ is, IsItems ⟨c.registry, M.globals⟩ C is →
      Typing.Yields ⟨c.registry, M.globals⟩ ⟨is, span⟩ t → M.Allows (Node.ofItems is) →
        Emits M c.registry .any C.frames (C.afterItems is).frames (blockValue c is)
          (Claim.fits M c.registry t)
  | [], _, hyields, _ => by
    rw [blockValue]
    obtain rfl : t = Registry.void := hyields
    exact .pure (Claim.gives_fits_const 0 (Registry.isStruct_of_ty hM.consistent.ty_void nofun))
  | .statement s :: is, .statement hs his, hyields, hallows => by
    rw [Node.ofItems, Node.ofItem, Pact.allows_append] at hallows
    have hstmt := emits_stmt c hM C s hs hallows.1
    have hrest := emits_blockValue c hM C t span is his
    have hlast := @emits_stmtValue c hM C s
    rcases blockValue_cons c (.statement s) is with hcode | ⟨e, span', heq, rfl, hcode⟩
    · by_cases hlone : ∃ e span, BlockItem.statement s = .statement ⟨.expr e, span⟩ ∧ is = []
      · obtain ⟨e, span', heq, rfl⟩ := hlone
        cases heq
        rw [blockValue]
        exact hlast rfl hs hyields hallows.1
      · rw [hcode, blockItem]
        exact hstmt.andThen fun _ => hrest (yields_rest hyields hlone) hallows.2
    · cases heq
      rw [hcode]
      exact hlast rfl hs hyields hallows.1
  | .declaration d :: is, .declaration hd his, hyields, hallows => by
    rw [Node.ofItems, Node.ofItem, Pact.allows_append] at hallows
    have hlone : ¬ ∃ e span, BlockItem.declaration d = .statement ⟨.expr e, span⟩ ∧ is = [] := by
      rintro ⟨_, _, heq, -⟩
      cases heq
    rcases blockValue_cons c (.declaration d) is with hcode | ⟨_, _, heq, -⟩
    swap
    · cases heq
    rw [hcode, blockItem]
    exact (emits_declaration c hM C d hd hallows.1).andThen fun _ =>
      emits_blockValue c hM _ t span is his (yields_rest hyields hlone) hallows.2

/-- The value of a block that is one expression. -/
theorem emits_stmtValue (c : Context) (hM : M.Sound c.registry c.returns) (C : Site) : ∀ s
    {e : Expr} {span blockSpan : Span} {t : TypeId}, s = ⟨.expr e, span⟩ →
      IsStmt ⟨c.registry, M.globals⟩ C s →
      Typing.Yields ⟨c.registry, M.globals⟩ ⟨[.statement s], blockSpan⟩ t →
        M.Allows (Node.ofStmt s) →
        Emits M c.registry .any C.frames C.frames (valueOf c.registry (expr c e))
          (Claim.fits M c.registry t)
  | ⟨.expr e, _⟩, _, _, _, t, rfl, .expr (t := u) he _, hyields, hallows => by
    rw [Node.ofStmt, Node.ofStmtKind] at hallows
    have hdecays : c.registry.Decays u t := by
      simpa only [Typing.Yields, Block.trailing?, List.getLast?_singleton, Option.bind_some,
        he.ty_eq] using hyields
    exact (emits_valueOf hM (emits_expr c hM C _ e he hallows)).mono fun _ =>
      (Claim.gives_right _ _).weaken fun _ hw => M.fits_of_decays hdecays hw

theorem emits_blockItems (c : Context) (hM : M.Sound c.registry c.returns) (C : Site) : ∀ is,
    IsItems ⟨c.registry, M.globals⟩ C is → M.Allows (Node.ofItems is) →
      Emits M c.registry .any C.frames (C.afterItems is).frames (blockItems c is) fun _ => .any
  | [], _, _ => by
    rw [blockItems]
    exact .pure (Claim.gives_any _)
  | .statement s :: is, .statement hs his, hallows => by
    rw [Node.ofItems, Node.ofItem, Pact.allows_append] at hallows
    rw [blockItems, blockItem]
    exact (emits_stmt c hM C s hs hallows.1).andThen fun _ =>
      emits_blockItems c hM C is his hallows.2
  | .declaration d :: is, .declaration hd his, hallows => by
    rw [Node.ofItems, Node.ofItem, Pact.allows_append] at hallows
    rw [blockItems, blockItem]
    exact (emits_declaration c hM C d hd hallows.1).andThen fun _ =>
      emits_blockItems c hM _ is his hallows.2

theorem emits_stmt (c : Context) (hM : M.Sound c.registry c.returns) (C : Site) : ∀ s,
    IsStmt ⟨c.registry, M.globals⟩ C s → M.Allows (Node.ofStmt s) →
      Emits M c.registry .any C.frames C.frames (stmt c s) fun _ => .any
  | ⟨kind, span⟩, h, hallows => by
    rw [Node.ofStmt] at hallows
    rw [stmt]
    exact emits_stmtKind c hM C span kind h hallows

theorem emits_stmtKind (c : Context) (hM : M.Sound c.registry c.returns) (C : Site) (span : Span) :
    ∀ k, IsStmt ⟨c.registry, M.globals⟩ C ⟨k, span⟩ → M.Allows (Node.ofStmtKind k) →
      Emits M c.registry .any C.frames C.frames (stmtKind c k) fun _ => .any
  | .expr e, .expr he _, hallows => by
    rw [Node.ofStmtKind] at hallows
    rw [stmtKind]
    exact (emits_valueOf hM (emits_expr c hM C _ e he hallows)).map fun _ => Claim.gives_any _
  | .empty, _, _ => by
    rw [stmtKind]
    exact .pure (Claim.gives_any _)
  | .block ⟨items, _⟩, .block hitems, hallows => by
    rw [Node.ofStmtKind] at hallows
    rw [stmtKind]
    exact (emits_blockItems c hM C.inner items hitems hallows).inScope (grows_blockItems c items)
  | .if_ cond yes none, .if_ (.some hcond _) hyes _, hallows => by
    rw [Node.ofStmtKind, Pact.allows_append, Pact.allows_append] at hallows
    rw [stmtKind]
    exact emits_ifOnly ((emits_value c hM C _ cond hcond hallows.1).mono fun _ =>
      (Claim.gives_right _ _).word) (emits_stmt c hM C yes hyes hallows.2.1)
  | .if_ cond yes (some no), .if_ (.some hcond _) hyes (.some hno), hallows => by
    rw [Node.ofStmtKind, Pact.allows_append, Pact.allows_append, Node.ofStmt?] at hallows
    rw [stmtKind]
    exact emits_ifElse ((emits_value c hM C _ cond hcond hallows.1).mono fun _ =>
      (Claim.gives_right _ _).word) (emits_stmt c hM C yes hyes hallows.2.1)
        (emits_stmt c hM C no hno hallows.2.2)
  | .loop kind init cond update body, .loop hinit hcond hupdate hbody, hallows => by
    rw [Node.ofStmtKind, Pact.allows_append, Pact.allows_append, Pact.allows_append] at hallows
    rw [stmtKind]
    have hbody (stop next : Code.Label) :=
      emits_stmt { c with breakTo := some stop, continueTo := some next } hM
        (C.inner.afterInit init).inLoop body hbody hallows.2.2.2
    have hloop := emits_loop (P := .any) kind.testsFirst
      (emits_test c hM _ cond hcond hallows.2.1) hbody
      (emits_effect c hM _ update hupdate hallows.2.2.1)
    have hgrows : Grows List.tail (do
        loopInit c init
        loop kind.testsFirst (test c cond)
          (fun stop next => stmt { c with breakTo := some stop, continueTo := some next } body)
          (effect c update)) :=
      .bind (grows_loopInit c init) fun _ => (grows_loop (fun l => grows_test c cond l)
        (fun stop next => grows_stmt _ body) (grows_effect c update)).tail
    exact Emits.inScope ((emits_loopInit c hM C.inner init hinit hallows.1).andThen fun _ => hloop)
      hgrows
  | .break_, _, _ => by
    rw [stmtKind]
    exact emits_leave _
  | .continue_, _, _ => by
    rw [stmtKind]
    exact emits_leave _
  | .return_ none, _, _ => by
    rw [stmtKind]
    exact .emit fun T n _ => ⟨hM.result 0 fun a _ => a.truncate_zero, nofun, nofun⟩
  | .return_ (some e), .return_ (.some _ _ he _), hallows => by
    rw [Node.ofStmtKind, Node.ofExpr?] at hallows
    rw [stmtKind]
    refine (emits_value c hM C _ e he hallows).bind fun v =>
      (emits_convert (Claim.gives_right _ _) c.returns).bind fun v => .emit fun T n hP => ?_
    refine ⟨fun w hw => hM.result w (hP.2.2 w hw).2, nofun, fun o ho => ?_⟩
    exact List.mem_singleton.mp ho ▸ hP.2.1

theorem emits_loopInit (c : Context) (hM : M.Sound c.registry c.returns) (C : Site) : ∀ i,
    IsLoopInit ⟨c.registry, M.globals⟩ C i → M.Allows (Node.ofInit i) →
      Emits M c.registry .any C.frames (C.afterInit i).frames (loopInit c i) fun _ => .any
  | none, _, _ => by
    rw [loopInit]
    exact .pure (Claim.gives_any _)
  | some (.expr e), .expr he, hallows => by
    rw [Node.ofInit] at hallows
    rw [loopInit]
    exact (emits_valueOf hM (emits_expr c hM C _ e he hallows)).map fun _ => Claim.gives_any _
  | some (.declaration d), .declaration hd, hallows => by
    rw [Node.ofInit] at hallows
    rw [loopInit]
    exact emits_declaration c hM C d hd hallows

theorem emits_test (c : Context) (hM : M.Sound c.registry c.returns) (C : Site) : ∀ e,
    IsCondition ⟨c.registry, M.globals⟩ C e → M.Allows (Node.ofExpr? e) → ∀ stop,
      Emits M c.registry .any C.frames C.frames (test c e stop) fun _ => .any
  | none, _, _, _ => by
    rw [test]
    exact .pure (Claim.gives_any _)
  | some e, .some he _, hallows, _ => by
    rw [Node.ofExpr?] at hallows
    rw [test]
    exact (emits_value c hM C _ e he hallows).bind fun _ =>
      (emits_branch (Claim.gives_right _ _).word _).1

theorem emits_effect (c : Context) (hM : M.Sound c.registry c.returns) (C : Site) : ∀ e,
    IsExpr? ⟨c.registry, M.globals⟩ C e → M.Allows (Node.ofExpr? e) →
      Emits M c.registry .any C.frames C.frames (effect c e) fun _ => .any
  | none, _, _ => by
    rw [effect]
    exact .pure (Claim.gives_any _)
  | some e, .some he, hallows => by
    rw [Node.ofExpr?] at hallows
    rw [effect]
    exact (emits_valueOf hM (emits_expr c hM C _ e he hallows)).map fun _ => Claim.gives_any _

theorem emits_declaration (c : Context) (hM : M.Sound c.registry c.returns) (C : Site) : ∀ d,
    IsDecl ⟨c.registry, M.globals⟩ C d → M.Allows (Node.ofDecl d) →
      Emits M c.registry .any C.frames (C.afterDecl d).frames (declaration c d) fun _ => .any
  | ⟨.vars vars, span⟩, .vars hvars, hallows => by
    rw [Node.ofDecl] at hallows
    rw [declaration]
    exact emits_varDecls c hM C vars hvars hallows
  | ⟨.struct spec, span⟩, _, _ => by
    rw [declaration]
    exact .pure (Claim.gives_any _)

theorem emits_varDecls (c : Context) (hM : M.Sound c.registry c.returns) (C : Site) : ∀ vs,
    IsVars ⟨c.registry, M.globals⟩ C vs → M.Allows (Node.ofVars vs) →
      Emits M c.registry .any C.frames (C.afterVars vs).frames (varDecls c vs) fun _ => .any
  | [], _, _ => by
    rw [varDecls]
    exact .pure (Claim.gives_any _)
  | v :: vs, .cons hresolved _ _ hinit hvs, hallows => by
    rw [Node.ofVars, Pact.allows_append] at hallows
    rw [varDecls]
    exact (emits_localVar c hM C _ v hresolved hinit hallows.1).andThen fun _ =>
      emits_varDecls c hM _ vs hvs hallows.2

theorem emits_localVar (c : Context) (hM : M.Sound c.registry c.returns) (C : Site) (t : TypeId) :
    ∀ v, v.resolved = some t → Initializes? ⟨c.registry, M.globals⟩ (C.afterVar v) t v.init →
      M.Allows (Node.ofVar v) →
        Emits M c.registry .any C.frames (C.afterVar v).frames (localVar c v) fun _ => .any
  | ⟨name, ty, init, span, resolved⟩, hresolved, hinit, hallows => by
    obtain rfl : resolved = some t := hresolved
    rw [Node.ofVar, Pact.allows_cons] at hallows
    rw [localVar]
    have hbind {P : Claim} {slot : Code.Temp}
        (h : P.Gives (.carries M.terms (.temp slot) (M.terms.reach · 0 (c.registry.sizeOf t)))) :
        Emits M c.registry P C.frames (C.afterVar ⟨name, ty, init, span, some t⟩).frames
          (bind name slot) fun _ => .any :=
      emits_bind (Typing.symbolOf C.isGlobal ⟨name, ty, init, span, some t⟩) h
    refine .found <| (emits_allocate t).bind fun slot => .bind (hbind (Claim.gives_right _ _))
      fun _ => ?_
    have hplace : ((Claim.any.and (.carries M.terms (.temp slot)
        (M.terms.reach · 0 (c.registry.sizeOf t)))).and .any).Gives
          (.reaches M ⟨.temp slot, 0, t⟩ (c.registry.sizeOf t)) := (Claim.gives_right _ _).left _
    cases init with
    | none => exact .pure (Claim.gives_any _)
    | some i =>
      cases hinit with
      | some hi =>
        rw [Node.ofInitializer?] at hallows
        have hcode := emits_initializer c hM _ ⟨.temp slot, 0, t⟩ i hi hallows.2
        refine .ite (fun _ => ?_) fun _ => hcode.knowing hplace
        exact (emits_zero hM hplace).bind fun _ => hcode.knowing (hplace.left _)

theorem emits_initializer (c : Context) (hM : M.Sound c.registry c.returns) (C : Site)
    (target : Place) : ∀ i, Initializes ⟨c.registry, M.globals⟩ C target.ty i →
      M.Allows (Node.ofInitializer i) →
        Emits M c.registry (.reaches M target (c.registry.sizeOf target.ty)) C.frames C.frames
          (initializer c target i) fun _ => .any
  | .expr e, h, hallows => by
    rw [Node.ofInitializer] at hallows
    have hvalue (v : TypeId) := emits_value c hM C v e
    rw [initializer]
    cases h with
    | @text _ _ element length text _ _ hty hsize _ hlength _ =>
      replace hty : c.registry.ty target.ty = .array _ _ := hty
      replace hsize : c.registry.sizeOf element = 1 := hsize
      simp only [hty]
      refine emits_storeBytes hM _ (gives_first hM (.refl _) ?_)
      rw [(hM.consistent.size_array hty).1, hsize, Nat.one_mul]
      exact List.length_take_le _ _
    | value hmovable hv hassign _ =>
      have hcode := (hvalue _ hv hallows).always (P := .reaches M target
        (c.registry.sizeOf target.ty))
      split
      · rename_i hty _
        simp [Registry.Movable, Registry.isScalar, Registry.isInteger, Registry.isPointer,
          Registry.isStruct, hty] at hmovable
      · rename_i hty
        have hstruct : c.registry.isStruct target.ty = true := by simp only [Registry.isStruct, hty]
        rw [eq_of_isAssignable hassign hstruct] at hcode
        refine hcode.bind fun v => emits_copy hM ((Claim.Gives.refl _).left _) ?_
        exact (Claim.gives_right _ _).weaken fun a ha => ha hstruct
      · exact hcode.bind fun v => (emits_convert_word (Claim.gives_right _ _).word _).bind fun v =>
          emits_store hM (((Claim.Gives.refl _).left _).left _) (Claim.gives_right _ _)
  | .list items _, h, hallows => by
    rw [Node.ofInitializer] at hallows
    have hfirst := emits_firstItem c hM C target items
    have helements (element : TypeId) (n : Nat) := emits_elements c hM C element n target items
    have hmembers (ms : List Member) := emits_members c hM C target ms items
    rw [initializer]
    cases h with
    | @elements _ _ element length _ _ hty hitems =>
      replace hty : c.registry.ty target.ty = .array element length := hty
      simp only [hty]
      refine (helements element length hitems hallows).knowing ?_
      rw [(hM.consistent.size_array hty).1]
      exact .refl _
    | @members _ _ s _ _ hty hitems =>
      replace hty : c.registry.ty target.ty = .struct s := hty
      simp only [hty]
      exact hmembers _ hitems hallows _ fun m hm => (hM.consistent.member_inside hty hm).1
    | scalar hscalar he =>
      split
      · rename_i hty
        simp [Registry.isScalar, Registry.isInteger, Registry.isPointer, hty] at hscalar
      · rename_i hty
        simp [Registry.isScalar, Registry.isInteger, Registry.isPointer, hty] at hscalar
      · exact hfirst ⟨_, rfl, he⟩ hallows

theorem emits_elements (c : Context) (hM : M.Sound c.registry c.returns) (C : Site)
    (element : TypeId) (n : Nat) (target : Place) : ∀ is,
      InitializesAll ⟨c.registry, M.globals⟩ C (List.replicate n element) is →
        M.Allows (Node.ofInitializers is) →
          Emits M c.registry (.reaches M target (c.registry.sizeOf element * n)) C.frames C.frames
            (elements c element target is) fun _ => .any
  | [], _, _ => by
    rw [elements]
    exact .pure (Claim.gives_any _)
  | i :: is, h, hallows => by
    rw [Node.ofInitializers, Pact.allows_append] at hallows
    rw [elements]
    cases n with
    | zero => cases h
    | succ n =>
      cases h with
      | cons hi his =>
        have hall := Claim.Gives.refl (.reaches M target (c.registry.sizeOf element * (n + 1)))
        have hhere := gives_first hM hall
          (Nat.le_mul_of_pos_right (c.registry.sizeOf element) (Nat.succ_pos n))
        have hthere := gives_further hM (d := c.registry.sizeOf element)
          (k := c.registry.sizeOf element * n) hall (by rw [Nat.mul_succ, Nat.add_comm]) target.ty
        have hcode := emits_initializer c hM C { target with ty := element } i hi hallows.1
        exact (hcode.knowing hhere).bind fun _ =>
          (emits_elements c hM C element n _ is his hallows.2).knowing (hthere.left _)

theorem emits_members (c : Context) (hM : M.Sound c.registry c.returns) (C : Site)
    (target : Place) (ms : List Member) : ∀ is,
      InitializesAll ⟨c.registry, M.globals⟩ C (ms.map (·.ty)) is →
        M.Allows (Node.ofInitializers is) → ∀ n,
          (∀ m ∈ ms, m.offset + c.registry.sizeOf m.ty ≤ n) →
            Emits M c.registry (.reaches M target n) C.frames C.frames (members c target ms is)
              fun _ => .any
  | [], _, _, _, _ => by
    rw [members]
    exact .pure (Claim.gives_any _)
  | i :: is, h, hallows, n, hms => by
    rw [Node.ofInitializers, Pact.allows_append] at hallows
    cases ms with
    | nil =>
      rw [members]
      exact .pure (Claim.gives_any _)
    | cons m ms =>
      rw [members]
      cases h with
      | cons hi his =>
        have hall := Claim.Gives.refl (.reaches M target n)
        have hhere := gives_further hM hall (hms m (List.mem_cons_self ..)) m.ty
        have hcode := emits_initializer c hM C (target.further (Int64.ofNat m.offset) m.ty) i hi
          hallows.1
        exact (hcode.knowing hhere).bind fun _ =>
          (emits_members c hM C target ms is his hallows.2 n fun m' hm' =>
            hms m' (List.mem_cons_of_mem _ hm')).knowing (hall.left _)

theorem emits_firstItem (c : Context) (hM : M.Sound c.registry c.returns) (C : Site)
    (target : Place) : ∀ is,
      (∃ e, is = [.expr e] ∧ Initializes ⟨c.registry, M.globals⟩ C target.ty (.expr e)) →
        M.Allows (Node.ofInitializers is) →
          Emits M c.registry (.reaches M target (c.registry.sizeOf target.ty)) C.frames C.frames
            (firstItem c target is) fun _ => .any
  | [], _, _ => by
    rw [firstItem]
    exact .pure (Claim.gives_any _)
  | i :: is, h, hallows => by
    rw [Node.ofInitializers, Pact.allows_append] at hallows
    rw [firstItem]
    refine emits_initializer c hM C target i ?_ hallows.1
    obtain ⟨e, heq, he⟩ := h
    cases heq
    exact he

end

end Trees

end MiniC.Lowering
