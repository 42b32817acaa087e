import MiniC.Proofs.Lowering.Completeness
import MiniC.Proofs.Typing.Ready
/-!
Trees that make sense can be lowered. Main statements: code for such a tree is found in every state,
an expression that stands for an object becomes the place of one of its type, and the initial values
of globals become bytes.
-/
namespace MiniC.Lowering

open Syntax
open Typing (Env Site HasType HasValue LastValue IsItems IsStmt IsStmt? IsExpr? IsCondition IsReturn
  IsLoopInit IsDecl IsVars Initializes? Initializes InitializesAll)

section Trees

variable {G : List Symbol} {C : Site} {t : TypeId}

mutual

theorem lowers_expr (c : Context) (C : Site) (t : TypeId) : ∀ e,
    HasType ⟨c.registry, G⟩ C e t → Completes (expr c e) (Locates e t)
  | ⟨kind, span, ty⟩, h => by
    obtain rfl : ty = some t := h.ty_eq
    rw [expr]
    exact lowers_exprKind c C t span kind h

theorem lowers_value (c : Context) (C : Site) (v : TypeId) : ∀ e,
    HasValue ⟨c.registry, G⟩ C e v → Always (valueOf c.registry (expr c e))
  | ⟨kind, span, ty⟩, .decays h _ => by
    obtain rfl := h.ty_eq
    rw [expr]
    exact always_valueOf (lowers_exprKind c C _ span kind h).always

theorem lowers_exprKind (c : Context) (C : Site) (t : TypeId) (span : Span) : ∀ k,
    HasType ⟨c.registry, G⟩ C ⟨k, span, some t⟩ t →
      Completes (exprKind c t k) (Locates ⟨k, span, some t⟩ t)
  | .integer n, _ => by
    rw [exprKind]
    exact .pure (.value rfl)
  | .character b, _ => by
    rw [exprKind]
    exact .pure (.value rfl)
  | .string text, _ => by
    rw [exprKind]
    exact (always_addText text).bind fun _ _ => .pure (.value rfl)
  | .name name, _ => by
    rw [exprKind]
    exact (always_variableAddress name).bind fun _ _ => .pure fun _ => ⟨_, rfl, rfl⟩
  | .binary op left right, h => by
    rw [exprKind]
    cases h with
    | binary hl hr _ =>
      have hleft := lowers_value c C _ left hl
      have hright := lowers_value c C _ right hr
      obtain ⟨_, hlty⟩ := hl.exists_ty
      obtain ⟨_, hrty⟩ := hr.exists_ty
      refine .ite (fun _ => (always_logical hleft hright).map fun _ _ => .value rfl) fun _ => ?_
      exact hleft.bind fun _ _ => hright.bind fun _ _ => (always_typeOf hlty).bind fun _ _ =>
        (always_typeOf hrty).bind fun _ _ =>
          (always_arithmetic _ _ _ _ _ _ _).map fun _ _ => .value rfl
  | .unary op operand, h => by
    rw [exprKind]
    cases h with
    | unary ho _ =>
      exact (lowers_value c C _ operand ho).bind fun _ _ => (always_define _).bind fun _ _ =>
        (always_convert _ _ _).map fun _ _ => .value rfl
  | .assign op target source, h => by
    cases h with
    | assign ht hlvalue hmovable hs _ =>
      have hsource := lowers_value c C _ source hs
      have htarget := completes_placeOf (lowers_expr c C _ target ht) hlvalue
      have hscalar (hstruct : ¬ c.registry.isStruct t = true) : c.registry.isScalar t = true :=
        hmovable.resolve_right hstruct
      obtain ⟨_, hsty⟩ := hs.exists_ty
      have hcopy := (always_assignStruct (r := c.registry) (t := t) hsource htarget.always).map
        (f := Lowered.value) (Q := Locates ⟨.assign op target source, span, some t⟩ t)
        fun _ _ => .value rfl
      cases op with
      | none =>
        rw [exprKind]
        exact .ite (fun _ => hcopy) fun hstruct =>
          (always_assignScalar hsource htarget (hscalar hstruct)).map fun _ _ => .value rfl
      | some op =>
        rw [exprKind]
        exact .ite (fun _ => hcopy) fun hstruct =>
          (always_assignCompound hsource htarget (hscalar hstruct) hsty).map fun _ _ => .value rfl
  | .conditional cond yes no, h => by
    rw [exprKind]
    cases h with
    | conditional hc _ hy hn _ =>
      exact (always_conditional (lowers_value c C _ cond hc)
        ((lowers_value c C _ yes hy).bind fun _ _ => always_convert _ _ _)
        ((lowers_value c C _ no hn).bind fun _ _ => always_convert _ _ _)).map fun _ _ => .value rfl
  | .call callee args, h => by
    rw [exprKind]
    cases h with
    | call hname _ _ _ _ _ hargs =>
      exact (always_call hname (lowers_values c C _ args hargs)).map fun _ _ => .value rfl
  | .index array index, h => by
    rw [exprKind]
    cases h with
    | index ha hi _ _ =>
      have harray := (lowers_expr c C _ array ha).always
      have hindex := lowers_value c C _ index hi
      refine (always_typeOf ha.ty_eq).bind fun _ _ => .ite (fun _ => ?_) fun _ => ?_
      · exact (completes_storageOf harray 0).bind fun element helement =>
          (completes_subscript _ _ hindex).map fun p hp _ => ⟨p, rfl, hp.trans helement⟩
      · refine (always_valueOf harray).bind fun _ _ =>
          .bind (P := fun element => element.ty = t) (.pure rfl) fun element helement =>
            (completes_subscript _ _ hindex).map fun p hp _ => ⟨p, rfl, hp.trans helement⟩
  | .member object field resolved, h => by
    rw [exprKind]
    cases h with
    | member ho _ =>
      exact .bind (P := fun m => m = _) (.need rfl rfl) fun m hm => hm ▸
        (completes_storageOf (lowers_expr c C _ object ho).always _).map fun p hp _ => ⟨p, rfl, hp⟩
  | .pointerMember pointer field resolved, h => by
    rw [exprKind]
    cases h with
    | pointerMember hp _ _ =>
      exact .bind (P := fun m => m = _) (.need rfl rfl) fun m hm => hm ▸
        (lowers_value c C _ pointer hp).bind fun _ _ => .pure fun _ => ⟨_, rfl, rfl⟩
  | .cast target operand, h => by
    rw [exprKind]
    cases h with
    | cast ho _ =>
      exact (lowers_value c C _ operand ho).bind fun _ _ =>
        (always_cast _).map fun _ _ => .value rfl
  | .query q operand, h => nomatch h
  | .typeQuery q target, h => nomatch h
  | .addressOf operand, h => by
    rw [exprKind]
    cases h with
    | addressOf ho hlvalue _ =>
      exact (completes_placeOf (lowers_expr c C _ operand ho) hlvalue).bind fun p _ =>
        (always_address p).map fun _ _ => .value rfl
  | .deref pointer, h => by
    rw [exprKind]
    cases h with
    | deref ho _ =>
      exact (lowers_value c C _ pointer ho).bind fun _ _ => .pure fun _ => ⟨_, rfl, rfl⟩
  | .step operand decrement yieldsOld, h => by
    rw [exprKind]
    cases h with
    | step ho hlvalue hscalar _ =>
      exact (always_step (completes_placeOf (lowers_expr c C _ operand ho) hlvalue) hscalar).map
        fun _ _ => .value rfl
  | .comma items, h => by
    rw [exprKind]
    cases h with
    | comma hitems => exact (lowers_lastValue c C _ _ _ items hitems).map fun _ _ => .value rfl
  | .block ⟨items, span⟩, h => by
    rw [exprKind]
    cases h with
    | block hitems _ =>
      exact (lowers_blockValue c C.inner items hitems).inScope.map fun _ _ => .value rfl

theorem lowers_values (c : Context) (C : Site) (params : List TypeId) : ∀ es,
    Typing.Arguments ⟨c.registry, G⟩ C params es → Always (values c es)
  | [], _ => by
    rw [values]
    exact .pure trivial
  | e :: es, .cons he _ hes => by
    rw [values]
    exact (lowers_value c C _ e he).bind fun _ _ =>
      (lowers_values c C params.tail es hes).bind fun _ _ => .pure trivial

theorem lowers_lastValue (c : Context) (C : Site) (last : Code.Operand) (u t : TypeId) : ∀ es,
    LastValue ⟨c.registry, G⟩ C u es t → Always (lastValue c last es)
  | [], _ => by
    rw [lastValue]
    exact .pure trivial
  | e :: es, .cons he hes => by
    rw [lastValue]
    exact (lowers_value c C _ e he).bind fun v _ => lowers_lastValue c C v _ t es hes

theorem lowers_blockValue (c : Context) (C : Site) : ∀ is,
    IsItems ⟨c.registry, G⟩ C is → Always (blockValue c is)
  | [], _ => by
    rw [blockValue]
    exact .pure trivial
  | i :: is, h => by
    have hi := lowers_blockItem c C i
    rcases blockValue_cons c i is with hcode | ⟨e, span, rfl, rfl, hcode⟩
    · rw [hcode]
      cases h with
      | statement hs his => exact (hi hs).bind fun _ _ => lowers_blockValue c C is his
      | declaration hd his => exact (hi hd).bind fun _ _ => lowers_blockValue c _ is his
    · rw [hcode]
      cases h with
      | statement hs _ =>
        have hcode := hi hs
        rw [blockItem, stmt, stmtKind] at hcode
        exact hcode.of_map

theorem lowers_blockItems (c : Context) (C : Site) : ∀ is,
    IsItems ⟨c.registry, G⟩ C is → Always (blockItems c is)
  | [], _ => by
    rw [blockItems]
    exact .pure trivial
  | i :: is, h => by
    have hi := lowers_blockItem c C i
    rw [blockItems]
    cases h with
    | statement hs his => exact (hi hs).bind fun _ _ => lowers_blockItems c C is his
    | declaration hd his => exact (hi hd).bind fun _ _ => lowers_blockItems c _ is his

theorem lowers_blockItem (c : Context) (C : Site) : ∀ i,
    (match i with
      | .statement s => IsStmt ⟨c.registry, G⟩ C s
      | .declaration d => IsDecl ⟨c.registry, G⟩ C d) → Always (blockItem c i)
  | .statement s, h => by
    rw [blockItem]
    exact lowers_stmt c C s h
  | .declaration d, h => by
    rw [blockItem]
    exact lowers_declaration c C d h

theorem lowers_stmt (c : Context) (C : Site) : ∀ s,
    IsStmt ⟨c.registry, G⟩ C s → Always (stmt c s)
  | ⟨kind, span⟩, h => by
    rw [stmt]
    exact lowers_stmtKind c C span kind h

theorem lowers_stmtKind (c : Context) (C : Site) (span : Span) : ∀ k,
    IsStmt ⟨c.registry, G⟩ C ⟨k, span⟩ → Always (stmtKind c k)
  | .expr e, .expr he _ => by
    rw [stmtKind]
    exact (always_valueOf (lowers_expr c C _ e he).always).map fun _ _ => trivial
  | .empty, _ => by
    rw [stmtKind]
    exact .pure trivial
  | .block ⟨items, _⟩, .block hitems => by
    rw [stmtKind]
    exact (lowers_blockItems c C.inner items hitems).inScope
  | .if_ cond yes none, .if_ (.some hcond _) hyes _ => by
    rw [stmtKind]
    exact always_ifOnly (lowers_value c C _ cond hcond) (lowers_stmt c C yes hyes)
  | .if_ cond yes (some no), .if_ (.some hcond _) hyes (.some hno) => by
    rw [stmtKind]
    exact always_ifElse (lowers_value c C _ cond hcond) (lowers_stmt c C yes hyes)
      (lowers_stmt c C no hno)
  | .loop kind init cond update body, .loop hinit hcond hupdate hbody => by
    rw [stmtKind]
    exact ((lowers_loopInit c C.inner init hinit).bind fun _ _ =>
      always_loop (lowers_test c _ cond hcond)
        (fun stop next => lowers_stmt { c with breakTo := some stop, continueTo := some next } _ body
          hbody) (lowers_effect c _ update hupdate)).inScope
  | .break_, _ => by
    rw [stmtKind]
    exact always_leave _
  | .continue_, _ => by
    rw [stmtKind]
    exact always_leave _
  | .return_ none, _ => by
    rw [stmtKind]
    exact always_emit _
  | .return_ (some e), .return_ (.some _ _ he _) => by
    rw [stmtKind]
    exact (lowers_value c C _ e he).bind fun _ _ => (always_convert _ _ _).bind fun _ _ =>
      always_emit _

theorem lowers_loopInit (c : Context) (C : Site) : ∀ i,
    IsLoopInit ⟨c.registry, G⟩ C i → Always (loopInit c i)
  | none, _ => by
    rw [loopInit]
    exact .pure trivial
  | some (.expr e), .expr he => by
    rw [loopInit]
    exact (always_valueOf (lowers_expr c C _ e he).always).map fun _ _ => trivial
  | some (.declaration d), .declaration hd => by
    rw [loopInit]
    exact lowers_declaration c C d hd

theorem lowers_test (c : Context) (C : Site) : ∀ e,
    IsCondition ⟨c.registry, G⟩ C e → ∀ stop, Always (test c e stop)
  | none, _, _ => by
    rw [test]
    exact .pure trivial
  | some e, .some he _, _ => by
    rw [test]
    exact (lowers_value c C _ e he).bind fun _ _ => always_branchUnless _ _

theorem lowers_effect (c : Context) (C : Site) : ∀ e,
    IsExpr? ⟨c.registry, G⟩ C e → Always (effect c e)
  | none, _ => by
    rw [effect]
    exact .pure trivial
  | some e, .some he => by
    rw [effect]
    exact (always_valueOf (lowers_expr c C _ e he).always).map fun _ _ => trivial

theorem lowers_declaration (c : Context) (C : Site) : ∀ d,
    IsDecl ⟨c.registry, G⟩ C d → Always (declaration c d)
  | ⟨.vars vars, span⟩, .vars hvars => by
    rw [declaration]
    exact lowers_varDecls c C vars hvars
  | ⟨.struct spec, span⟩, _ => by
    rw [declaration]
    exact .pure trivial

theorem lowers_varDecls (c : Context) (C : Site) : ∀ vs,
    IsVars ⟨c.registry, G⟩ C vs → Always (varDecls c vs)
  | [], _ => by
    rw [varDecls]
    exact .pure trivial
  | v :: vs, .cons hresolved _ _ hinit hvs => by
    rw [varDecls]
    exact (lowers_localVar c (C.afterVar v) _ v hresolved hinit).bind fun _ _ =>
      lowers_varDecls c _ vs hvs

theorem lowers_localVar (c : Context) (C : Site) (t : TypeId) : ∀ v, v.resolved = some t →
    Initializes? ⟨c.registry, G⟩ C t v.init → Always (localVar c v)
  | ⟨name, ty, init, span, resolved⟩, hresolved, hinit => by
    rw [localVar]
    refine .bind (P := fun u => u = t) (.need hresolved rfl) fun u hu => hu ▸
      (always_allocate _ _).bind fun slot _ => (always_bind name slot).bind fun _ _ => ?_
    cases init with
    | none => exact .pure trivial
    | some i =>
      cases hinit with
      | some hi =>
        have hcode := lowers_initializer c C ⟨.temp slot, 0, t⟩ i hi
        exact .ite (fun _ => (always_zeroMoves _ _).bind fun _ _ => hcode) fun _ => hcode

theorem lowers_initializer (c : Context) (C : Site) (target : Place) : ∀ i,
    Initializes ⟨c.registry, G⟩ C target.ty i → Always (initializer c target i)
  | .expr e, h => by
    rw [initializer]
    cases h with
    | text hty _ _ _ _ =>
      replace hty : c.registry.ty target.ty = .array _ _ := hty
      simp only [hty]
      exact always_storeBytes _ _
    | value hmovable hv _ _ =>
      have he := lowers_value c C _ e hv
      split
      · exact always_storeBytes _ _
      · exact he.bind fun _ _ => always_copyMoves _ _ _
      · rename_i hstruct _
        refine he.bind fun _ _ => (always_convert _ _ _).bind fun _ _ =>
          always_store (hmovable.resolve_right fun h => ?_) _
        unfold Registry.isStruct at h
        split at h
        · exact hstruct _ ‹_›
        · cases h
  | .list items _, h => by
    have hfirst := lowers_firstItem c C target items
    rw [initializer]
    cases h with
    | elements hty hitems =>
      replace hty : c.registry.ty target.ty = .array _ _ := hty
      simp only [hty]
      exact lowers_elements c C _ _ target items hitems
    | members hty hitems =>
      replace hty : c.registry.ty target.ty = .struct _ := hty
      simp only [hty]
      exact lowers_members c C target _ items hitems
    | scalar hscalar he =>
      split
      · rename_i hty
        simp [Registry.isScalar, Registry.isInteger, Registry.isPointer, hty] at hscalar
      · rename_i hty
        simp [Registry.isScalar, Registry.isInteger, Registry.isPointer, hty] at hscalar
      · exact hfirst ⟨_, rfl, he⟩

theorem lowers_elements (c : Context) (C : Site) (element : TypeId) (n : Nat) (target : Place) : ∀ is,
    InitializesAll ⟨c.registry, G⟩ C (List.replicate n element) is →
      Always (elements c element target is)
  | [], _ => by
    rw [elements]
    exact .pure trivial
  | i :: is, h => by
    rw [elements]
    cases n with
    | zero => cases h
    | succ n =>
      cases h with
      | cons hi his =>
        exact (lowers_initializer c C { target with ty := element } i hi).bind fun _ _ =>
          lowers_elements c C element n _ is his

theorem lowers_members (c : Context) (C : Site) (target : Place) (ms : List Member) : ∀ is,
    InitializesAll ⟨c.registry, G⟩ C (ms.map (·.ty)) is → Always (members c target ms is)
  | [], _ => by
    rw [members]
    exact .pure trivial
  | i :: is, h => by
    cases ms with
    | nil =>
      rw [members]
      exact .pure trivial
    | cons m ms =>
      rw [members]
      cases h with
      | cons hi his =>
        exact (lowers_initializer c C (target.further _ m.ty) i hi).bind fun _ _ =>
          lowers_members c C target ms is his

theorem lowers_firstItem (c : Context) (C : Site) (target : Place) : ∀ is,
    (∃ e, is = [.expr e] ∧ Initializes ⟨c.registry, G⟩ C target.ty (.expr e)) →
      Always (firstItem c target is)
  | [], _ => by
    rw [firstItem]
    exact .pure trivial
  | i :: is, h => by
    rw [firstItem]
    refine lowers_initializer c C target i ?_
    obtain ⟨e, heq, he⟩ := h
    cases heq
    exact he

end

end Trees

/-! Globals. -/

section Globals

variable {E : Env} {C : Site} {t : TypeId}

/-- A constant is a scalar. -/
theorem isScalar_of_constant (hc : E.registry.Consistent) {e : Expr} (h : HasType E C e t)
    (he : e.constant?.isSome = true) : E.registry.isScalar t = true := by
  have hinteger {t : TypeId} (ht : E.registry.isInteger t = true) : E.registry.isScalar t = true := by
    simp [Registry.isScalar, ht]
  cases h with
  | integer ht => exact hinteger ht
  | character => exact hinteger (Typing.isInteger_int hc (by decide))
  | unary _ ht => exact hinteger (Typing.isInteger_unaryType hc ht)
  | binary _ _ ht => exact Typing.isScalar_binaryType hc ht
  | _ => simp [Expr.constant?, ExprKind.constant?] at he

/-- Only a scalar is initialized by a constant. -/
theorem isScalar_of_assignable (hc : E.registry.Consistent) {e : Expr} {v : TypeId}
    (h : HasValue E C e v) (he : e.constant?.isSome = true)
    (ht : Typing.isAssignable E.registry t v e = true) : E.registry.isScalar t = true := by
  cases h with
  | @decays _ _ u _ hu hdecays =>
    have hscalar := isScalar_of_constant hc hu he
    obtain rfl : v = u := by
      unfold Registry.Decays at hdecays
      split at hdecays
      · rename_i hty
        simp [Registry.isScalar, Registry.isInteger, Registry.isPointer, hty] at hscalar
      · exact hdecays
    simp only [Typing.isAssignable, Bool.or_eq_true, Bool.and_eq_true, beq_iff_eq] at ht
    rcases ht with ((rfl | ⟨ht, -⟩) | ⟨ht, -⟩) | ⟨⟨ht, -⟩, -⟩
    · exact hscalar
    · simp [Registry.isScalar, ht]
    · simp [Registry.isScalar, ht]
    · simp [Registry.isScalar, ht]

theorem exists_scalar {r : Registry} (ht : r.isScalar t = true) {e : Expr}
    (he : e.constant?.isSome = true) (offset : Nat) (image : Array UInt8) :
    ∃ image', Static.scalar r t offset e image = .ok image' := by
  obtain ⟨n, hn⟩ := Option.isSome_iff_exists.mp he
  obtain ⟨access, haccess⟩ := Option.isSome_iff_exists.mp (Registry.isSome_access ht)
  exact ⟨Bytes.writeWord image offset n.toUInt64 access.size,
    by simp only [Static.scalar, hn, haccess]⟩

mutual

theorem fills (hc : E.registry.Consistent) (hC : C.isGlobal = true) (t : TypeId) : ∀ i,
    Initializes E C t i → ∀ offset image,
      ∃ image', Static.fill E.registry t offset i image = .ok image'
  | .expr e, h, offset, image => by
    rw [Static.fill, Static.single]
    cases h with
    | text hty _ _ _ _ =>
      simp only [hty]
      exact ⟨_, rfl⟩
    | value hmovable hv hassign hconstant =>
      split
      · exact ⟨_, rfl⟩
      · exact exists_scalar (isScalar_of_assignable hc hv (hconstant hC) hassign) (hconstant hC) _ _
  | .list items _, h, offset, image => by
    have hfirst := fills_first hc hC t items
    rw [Static.fill]
    cases h with
    | elements hty hitems =>
      simp only [hty]
      exact fills_elements hc hC _ _ items hitems offset image
    | members hty hitems =>
      simp only [hty]
      exact fills_members hc hC _ items hitems offset image
    | scalar hscalar he =>
      split
      · rename_i hty
        simp [Registry.isScalar, Registry.isInteger, Registry.isPointer, hty] at hscalar
      · rename_i hty
        simp [Registry.isScalar, Registry.isInteger, Registry.isPointer, hty] at hscalar
      · exact hfirst ⟨_, rfl, he⟩ offset image

theorem fills_elements (hc : E.registry.Consistent) (hC : C.isGlobal = true) (element : TypeId)
    (n : Nat) : ∀ is, InitializesAll E C (List.replicate n element) is → ∀ offset image,
      ∃ image', Static.elements E.registry element offset is image = .ok image'
  | [], _, _, image => ⟨image, by rw [Static.elements]⟩
  | i :: is, h, offset, image => by
    rw [Static.elements]
    cases n with
    | zero => cases h
    | succ n =>
      cases h with
      | cons hi his =>
        obtain ⟨image', himage⟩ := fills hc hC element i hi offset image
        simp only [himage]
        exact fills_elements hc hC element n is his _ _

theorem fills_members (hc : E.registry.Consistent) (hC : C.isGlobal = true) (ms : List Member) : ∀ is,
    InitializesAll E C (ms.map (·.ty)) is → ∀ offset image,
      ∃ image', Static.members E.registry offset ms is image = .ok image'
  | [], _, _, image => ⟨image, by rw [Static.members]⟩
  | i :: is, h, offset, image => by
    cases ms with
    | nil => exact ⟨image, by rw [Static.members]⟩
    | cons m ms =>
      rw [Static.members]
      cases h with
      | cons hi his =>
        obtain ⟨image', himage⟩ := fills hc hC m.ty i hi (offset + m.offset) image
        simp only [himage]
        exact fills_members hc hC ms is his _ _

theorem fills_first (hc : E.registry.Consistent) (hC : C.isGlobal = true) (t : TypeId) : ∀ is,
    (∃ e, is = [.expr e] ∧ Initializes E C t (.expr e)) → ∀ offset image,
      ∃ image', Static.first E.registry t offset is image = .ok image'
  | [], _, _, image => ⟨image, by rw [Static.first]⟩
  | i :: is, h, offset, image => by
    rw [Static.first]
    refine fills hc hC t i ?_ offset image
    obtain ⟨e, heq, he⟩ := h
    cases heq
    exact he

end

theorem exists_globalOf (hc : E.registry.Consistent) (hC : C.isGlobal = true) {v : VarDecl}
    (hv : v.resolved = some t) (h : Initializes? E C t v.init) :
    ∃ g, globalOf E.registry v = .ok g := by
  obtain ⟨name, ty, init, span, resolved⟩ := v
  obtain rfl : resolved = some t := hv
  cases init with
  | none => exact ⟨_, rfl⟩
  | some i =>
    cases h with
    | some hi =>
      obtain ⟨image, himage⟩ := fills hc hC t i hi 0 (Array.replicate (E.registry.sizeOf t) 0)
      refine ⟨⟨name, E.registry.sizeOf t, E.registry.alignOf t, some image.toList⟩, ?_⟩
      simp only [globalOf, Static.image, himage]
      rfl

theorem exists_globals (hc : E.registry.Consistent) {d : Declaration}
    (h : IsDecl E Site.outermost d) : ∃ gs, globals E.registry d.kind = .ok gs := by
  have hall {C : Site} {vs : List VarDecl} (hC : C.isGlobal = true) (h : IsVars E C vs) :
      ∃ gs, vs.mapM (globalOf E.registry) = .ok gs := by
    induction vs generalizing C with
    | nil => exact ⟨[], rfl⟩
    | cons v vs ih =>
      cases h with
      | cons hresolved _ _ hinit hvs =>
        have hC' : (C.afterVar v).isGlobal = true := by rw [Site.afterVar, C.isGlobal_declare, hC]
        obtain ⟨g, hg⟩ := exists_globalOf hc hC' hresolved hinit
        obtain ⟨gs, hgs⟩ := ih hC' hvs
        exact ⟨g :: gs, by rw [List.mapM_cons, hg, hgs]; rfl⟩
  cases h with
  | vars hvars => exact hall rfl hvars
  | struct => exact ⟨[], rfl⟩

end Globals

/-! Functions and units. -/

section Units

variable {r : Registry} {G : List Symbol}

theorem Completes.lift {α : Type} {x : Except LoweringError α} {a : α} {P : α → Prop}
    (hx : x = .ok a) (h : P a) : Completes (liftM x) P := by
  subst hx
  exact fun s => ⟨a, s, rfl, h⟩

/-- The parameters of a function, as its code receives them. -/
theorem exists_params {hasBody : Bool} {ps : List ParamDecl}
    (h : ∀ p ∈ ps, Typing.IsParam ⟨r, G⟩ hasBody p) :
    ∃ qs, params ps = .ok qs ∧ ∀ q ∈ qs, r.Movable q.ty := by
  induction ps with
  | nil => exact ⟨[], rfl, List.forall_mem_nil _⟩
  | cons p ps ih =>
    obtain ⟨qs, hqs, hmovable⟩ := ih fun q hq => h q (List.mem_cons_of_mem _ hq)
    obtain ⟨⟨t, ht, htm⟩, -⟩ := h p (List.mem_cons_self ..)
    refine ⟨⟨p.name.getD "", t⟩ :: qs, ?_, List.forall_mem_cons.mpr ⟨htm, hmovable⟩⟩
    rw [params, hqs, ht]
    rfl

theorem always_receive {index : Nat} {p : Code.Param} (h : r.Movable p.ty) :
    Always (receive r index p) :=
  (always_define _).bind fun _ _ => (always_allocate r _).bind fun _ _ =>
    .ite (fun _ => (always_copyMoves _ _ _).bind fun _ _ => always_bind _ _) fun hstruct =>
      (always_store (h.resolve_right hstruct) _).bind fun _ _ => always_bind _ _

theorem always_receiveAll {ps : List Code.Param} (index : Nat) (h : ∀ p ∈ ps, r.Movable p.ty) :
    Always (receiveAll r index ps) := by
  induction ps generalizing index with
  | nil => exact .pure trivial
  | cons p ps ih =>
    exact (always_receive (h p (List.mem_cons_self ..))).bind fun _ _ =>
      ih (index + 1) fun q hq => h q (List.mem_cons_of_mem _ hq)

theorem always_function {f : FuncDecl} {body : Block} (h : Typing.IsFunction ⟨r, G⟩ f)
    (hbody : f.body = some body) : Always (function r f body) := by
  obtain ⟨ret, hret, -⟩ := h.returns
  obtain ⟨ps, hps, hmovable⟩ := exists_params h.params
  refine .bind (P := fun _ => True) (.need hret trivial) fun ret _ =>
    .bind (P := fun qs => qs = ps) (.lift hps rfl) fun qs hqs => hqs ▸
      .bind (P := fun _ => True) (.modify trivial) fun _ _ => (always_receiveAll 0 hmovable).bind
        fun _ _ => ?_
  exact (lowers_blockItems (G := G) ⟨r, ret, none, none⟩ _ body.items (h.body body hbody)).bind
    fun _ _ => (always_emit _).bind fun _ _ => .get_bind fun _ => .pure trivial

theorem always_topDecls (hc : r.Consistent) {ds : List TopDecl}
    (h : ∀ d ∈ ds, Typing.IsTopDecl ⟨r, G⟩ d) : Always (topDecls r ds) := by
  induction ds with
  | nil => exact .pure trivial
  | cons d ds ih =>
    have hrest := ih fun d hd => h d (List.mem_cons_of_mem _ hd)
    have hd := h d (List.mem_cons_self ..)
    cases d with
    | declaration d =>
      obtain ⟨gs, hgs⟩ := exists_globals (E := ⟨r, G⟩) hc hd
      exact .bind (P := fun _ => True) (.lift hgs trivial) fun _ _ => hrest.bind fun _ _ =>
        .pure trivial
    | function f =>
      rw [topDecls]
      cases hbody : f.body with
      | none => exact hrest
      | some body =>
        exact (always_function hd hbody).bind fun _ _ => hrest.bind fun _ _ => .pure trivial

/-- A unit that makes sense can be lowered. -/
theorem exists_lower (hc : r.Consistent) {u : CompilationUnit} (h : Typing.IsUnit ⟨r, G⟩ u) :
    ∃ m, lower r u = .ok m := by
  obtain ⟨⟨functions, globals⟩, s, hrun, -⟩ := always_topDecls hc h State.initial
  refine ⟨⟨functions, globals, s.data.toList⟩, ?_⟩
  unfold lower
  rw [show (topDecls r u.decls).run State.initial = .ok ((functions, globals), s) from hrun]
  rfl

end Units

end MiniC.Lowering
