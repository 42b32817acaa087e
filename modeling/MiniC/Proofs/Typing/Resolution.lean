import MiniC.Proofs.Typing.Ready
/-!
What each check finds out. Main statements: a written type that resolves is a type of the registry,
no object is void, and an operand that passes its check satisfies the rule of the judgement.
-/
namespace MiniC.Typing

open Syntax Check
open Registry (Grows)

variable {C : Site} {K : Env → Prop}

/-! Written types. -/

theorem checks_checkWritten (depth : Nat) (span : Span) :
    Checks C K (checkWritten depth span) fun _ _ => True :=
  .registry_bind (fun _ => .ite (.throw _) (.pure _)) fun _ _ _ _ => .test fun _ _ _ _ => trivial

/-- Past a test for void. -/
theorem Later.not_isVoid {E₀ E : Env} {t : TypeId} (h : Later E₀ E) (ht : E₀.registry.Valid t)
    (hvoid : ¬ E₀.registry.isVoid t = true) : E.registry.isVoid t = false := by
  rw [h.registry.isVoid_eq ht]
  simpa using hvoid

theorem checks_checkElement {t : TypeId} {span : Span}
    (ht : ∀ E, E.Sound → K E → E.registry.Valid t) :
    Checks C K (checkElement t span) fun E _ => E.registry.isVoid t = false :=
  .registry_bind (fun _ => .ite (.throw _) (.pure _)) fun _ _ hG hK =>
    .test fun hvoid _ _ hE => hE.2.not_isVoid (ht _ hG.sound hK) hvoid

/-- The type that a written type stands for; only an array type stands for an array. -/
def Resolves (kind : TypeKind) (E : Env) (t : TypeId) : Prop :=
  E.registry.Valid t ∧ ((∀ element size, kind ≠ .array element size) → E.registry.isArray t = false)

theorem Resolves.of_not_isArray {kind : TypeKind} {E : Env} {t : TypeId} (ht : E.registry.Valid t)
    (ha : E.registry.isArray t = false) : Resolves kind E t :=
  ⟨ht, fun _ => ha⟩

theorem Resolves.of_isStruct {kind : TypeKind} {E : Env} {t : TypeId}
    (h : E.registry.isStruct t = true) : Resolves kind E t := by
  refine .of_not_isArray (Registry.valid_of_isStruct h) ?_
  unfold Registry.isStruct at h
  unfold Registry.isArray
  split at h
  · rename_i hty
    rw [hty]
  · cases h

theorem Resolves.intType {kind : TypeKind} {E : Env} {r : Registry} (hE : E.Sound)
    (hr : r.config = E.registry.config) (width : IntWidth) (signed : Bool) :
    Resolves kind E (intType r width signed) := by
  have hint : E.registry.isInteger (Typing.intType r width signed) = true := by
    cases width with
    | long =>
      have hlong := hE.consistent.isInteger_cLong signed
      rwa [Registry.cLong, ← hr] at hlong
    | _ => exact isInteger_int hE.consistent (by decide)
  refine .of_not_isArray (Registry.valid_of_isInteger hint) ?_
  unfold Registry.isInteger at hint
  unfold Registry.isArray
  split at hint
  · rename_i hty
    rw [hty]
  · cases hint

mutual

theorem checks_resolveAt (K : Env → Prop) (depth : Nat) : ∀ ty,
    Checks C K (resolveAt depth ty) (Resolves ty.kind)
  | ⟨kind, _, span⟩ => by
    rw [resolveAt]
    exact (checks_checkWritten depth span).bind fun _ => checks_resolveKind _ depth span kind

theorem checks_resolveKind (K : Env → Prop) (depth : Nat) (span : Span) : ∀ kind,
    Checks C K (resolveKind depth span kind) (Resolves kind)
  | .void => by
    rw [resolveKind]
    refine .pure fun E hE _ => .of_not_isArray hE.consistent.valid_void ?_
    simp only [Registry.isArray, hE.consistent.ty_void]
  | .int width signed => by
    rw [resolveKind]
    exact .registry_bind (fun _ => .pure _) fun s G hG _ => .pure fun E hE hK =>
      .intType hE hK.2.registry.config.symm width signed
  | .pointer inner => by
    rw [resolveKind]
    refine (checks_resolveAt K (depth + 1) inner).bind fun t =>
      (checks_pointerTo fun E _ hE => hE.2.1).mono fun E t' _ _ hty => ?_
    exact .of_not_isArray (Registry.valid_of_ty (by simp [hty])) (by simp [Registry.isArray, hty])
  | .array element size => by
    rw [resolveKind]
    refine (checks_resolveAt K (depth + 1) element).bind fun t =>
      (checks_checkElement fun E _ hE => hE.2.1).bind fun _ => ?_
    cases size with
    | some length =>
      exact (checks_arrayOf fun E _ hE => ⟨hE.1.2.1, hE.2⟩).mono fun E t' _ _ hty =>
        ⟨Registry.valid_of_ty (by simp [hty]), fun h => absurd rfl (h element (some length))⟩
    | none => exact .throw _
  | .struct spec => by
    rw [resolveKind]
    exact (checks_resolveSpec K depth spec).mono fun E t _ _ h => .of_isStruct h

theorem checks_resolveSpec (K : Env → Prop) (depth : Nat) : ∀ spec,
    Checks C K (resolveSpec depth spec) fun E t => E.registry.isStruct t = true
  | ⟨id, name, members, span⟩ => by
    rw [resolveSpec]
    refine .get_bind (fun s => ?_) fun s G hG _ => ?_
    · cases s.specs[id]? with
      | some t => exact .pure t
      | none =>
        exact (quiet_resolveBody depth name span members).bind fun t =>
          .modify_bind (fun s => ⟨rfl, rfl⟩) (.pure t)
    · cases hspec : s.specs[id]? with
      | some t =>
        exact .pure fun E _ hE => Registry.isStruct_grows (hG.specs id t hspec) hE.2.registry
      | none =>
        refine (checks_resolveBody _ depth name span members).bind fun t =>
          .modify_bind (fun s => ⟨rfl, rfl⟩) (fun s' G' hG' hK => ⟨{ hG' with specs := ?_ }, rfl⟩)
            (.pure fun E _ hE => hE.2)
        intro id' t' ht'
        rw [Table.getElem?_insert] at ht'
        split at ht'
        · cases ht'
          exact hK.2
        · exact hG'.specs id' t' ht'

theorem checks_resolveBody (K : Env → Prop) (depth : Nat) (tag : Option String) (span : Span) :
    ∀ members, Checks C K (resolveBody depth tag span members) fun E t => E.registry.isStruct t = true
  | some members => by
    rw [resolveBody]
    refine (checks_resolveMembers K (depth + 1) members).bind fun decls =>
      (checks_buildStruct fun E _ hE => hE.2).bind fun t => ?_
    cases tag with
    | some name => exact (checks_enterTag fun E _ hE => hE.2).bind fun _ => .pure fun E _ hE => hE.1.2
    | none => exact .pure fun E _ hE => hE.2
  | none => by
    rw [resolveBody]
    refine .get_bind (fun s => ?_) fun s G hG _ => ?_
    · cases s.scope.lookupTag (tag.getD "") with
      | some t => exact .pure t
      | none => exact .throw _
    · cases htag : s.scope.lookupTag (tag.getD "") with
      | some t =>
        exact .pure fun E _ hE => Registry.isStruct_grows (hG.lookupTag_isStruct htag) hE.2.registry
      | none => exact .throw _

theorem checks_resolveMembers (K : Env → Prop) (depth : Nat) : ∀ ms,
    Checks C K (resolveMembers depth ms) fun E decls =>
      ∀ d ∈ decls, E.registry.Valid d.ty ∧ E.registry.isVoid d.ty = false
  | [] => by rw [resolveMembers]; exact .pure fun _ _ _ => nofun
  | m :: ms => by
    rw [resolveMembers]
    exact (checks_resolveMember K depth m).bind fun decl =>
      (checks_resolveMembers _ depth ms).bind fun decls => .pure fun E _ hE =>
        List.forall_mem_cons.mpr ⟨hE.1.2, hE.2⟩

theorem checks_resolveMember (K : Env → Prop) (depth : Nat) : ∀ m,
    Checks C K (resolveMember depth m) fun E decl =>
      E.registry.Valid decl.ty ∧ E.registry.isVoid decl.ty = false
  | ⟨name, ty, span⟩ => by
    rw [resolveMember]
    refine (checks_resolveAt K depth ty).bind fun t =>
      .registry_bind (fun _ => .guard (.throw _) (.pure _)) fun s G hG hK =>
        .guard (.pure _) fun hvoid => .pure fun E _ hE => ⟨hE.1.2.1, ?_⟩
    exact hE.2.not_isVoid hK.2.1 hvoid

end

/-- The type of an object. -/
theorem checks_resolveObject (ty : TypeExpr) (init : Option Initializer) :
    Checks C K (resolveObject ty init) fun E t => E.registry.Valid t ∧ Counted E ty init t := by
  unfold resolveObject
  split
  · rename_i element _
    split
    · rename_i length himplied
      exact (checks_resolveAt K 2 element).bind fun t =>
        (checks_checkElement fun E _ hE => hE.2.1).bind fun _ =>
          (checks_arrayOf fun E _ hE => ⟨hE.1.2.1, hE.2⟩).mono fun E t' _ _ hty =>
            ⟨Registry.valid_of_ty (by simp [hty]), fun _ _ => ⟨t, length, himplied, hty⟩⟩
    · exact .throw _
  · rename_i hkind
    exact (checks_resolveAt K 1 ty).mono fun _ _ _ _ h =>
      ⟨h.1, fun element helement => absurd helement (hkind element)⟩

/-- A parameter is no array. -/
theorem checks_resolveParam (ty : TypeExpr) :
    Checks C K (resolveParam ty) fun E t => E.registry.Valid t ∧ E.registry.isArray t = false := by
  unfold resolveParam
  split
  · exact (checks_resolveAt K 2 _).bind fun t =>
      (checks_pointerTo fun E _ hE => hE.2.1).mono fun E t' _ _ hty =>
        ⟨Registry.valid_of_ty (by simp [hty]), by simp [Registry.isArray, hty]⟩
  · rename_i hkind
    exact (checks_resolveAt K 1 ty).mono fun E t _ _ h => ⟨h.1, h.2 hkind⟩

/-! Operands. -/

/-- A name stands for an object, local or global. -/
theorem checks_nameType (name : String) (span : Span) :
    Checks C K (nameType name span) fun E t =>
      HasType E C ⟨.name name, span, some t⟩ t ∧ E.registry.Valid t ∧ E.registry.isVoid t = false := by
  refine .get_bind (fun s => ?_) fun s G hG _ => ?_
  · split
    · exact .throw _
    · exact .pure _
    · exact .throw _
  · split
    · exact .throw _
    · rename_i sym hkind hlookup
      have hobject : sym.IsObject := by
        obtain ⟨symName, kind, symTy, symSpan⟩ := sym
        cases kind with
        | function sig => exact absurd rfl (hkind symName sig symTy symSpan)
        | _ => trivial
      refine .pure fun E _ hE => ?_
      have hfits := (hG.symbol_fits hlookup).grows hE.2.registry
      refine ⟨?_, hfits.1, hfits.object hobject⟩
      rw [hG.lookup_eq] at hlookup
      cases hlocal : C.frames.symbol? name with
      | some found =>
        rw [hlocal] at hlookup
        cases hlookup
        exact .local hlocal
      | none =>
        rw [hlocal] at hlookup
        exact .global hlocal (hE.2.globals (List.mem_of_find?_eq_some hlookup))
          (by simpa using List.find?_some hlookup) hobject
    · exact .throw _

/-- What is called is a function of the global frame, as locals are no functions. -/
structure Calls (C : Site) (callee : Expr) (E : Env) (f : TypeId × Signature) : Prop where
  symbol : ∃ sym ∈ E.globals, callee.kind = .name sym.name ∧ C.frames.symbol? sym.name = none ∧
    sym.kind = .function f.2 ∧ sym.ty = f.1
  valid : E.registry.Valid f.1
  params : ∀ p ∈ f.2.params, E.registry.Valid p

theorem checks_calledFunction (callee : Expr) :
    Checks C K (calledFunction callee) (Calls C callee) := by
  unfold calledFunction
  split
  · rename_i name hname
    refine .get_bind (fun s => ?_) fun s G hG _ => ?_
    · split
      · exact .pure _
      · exact .registry_bind fun _ => .throw _
      · exact .throw _
    · split
      · rename_i symName sig ty symSpan hlookup
        have hfits := hG.symbol_fits hlookup
        rw [hG.lookup_eq] at hlookup
        cases hlocal : C.frames.symbol? name with
        | some found =>
          have hobject := hG.local_isObject hlocal
          rw [hlocal] at hlookup
          cases hlookup
          exact hobject.elim
        | none =>
          rw [hlocal] at hlookup
          have hsymName : symName = name := by simpa using List.find?_some hlookup
          subst hsymName
          refine .pure fun E _ hE => ⟨⟨_, hE.2.globals (List.mem_of_find?_eq_some hlookup), hname,
            hlocal, rfl, rfl⟩, ?_, ?_⟩
          · exact (hfits.grows hE.2.registry).1
          · exact fun p hp => ((hfits.grows hE.2.registry).2.2 p hp).valid
      · exact .registry_bind (fun _ => .throw _) fun _ _ _ _ => .throw _
      · exact .throw _
  · exact .throw _

theorem checks_checkArgumentCount (sig : Signature) (count : Nat) (span : Span) :
    Checks C K (checkArgumentCount sig count span) fun _ _ => sig.Takes count :=
  .test fun hcount _ _ _ => by
    simp only [Bool.or_eq_true, Bool.and_eq_true, Bool.not_eq_true', decide_eq_true_eq] at hcount
    refine ⟨by omega, ?_⟩
    cases hv : sig.variadic with
    | true => exact .inl rfl
    | false => exact .inr (by simp only [hv, true_and] at hcount; omega)

theorem isAssignable_of_checkAssignable {r : Registry} {t v : TypeId} {e : Expr}
    (h : checkAssignable r t v e = .ok ()) : isAssignable r t v e = true := by
  unfold checkAssignable at h
  split at h
  · assumption
  · split at h <;> cases h

/-- A value that may be stored into a type may be stored into it from then on. -/
theorem checks_checkAssignable {t v : TypeId} {e : Expr}
    (ht : ∀ E, E.Sound → K E → E.registry.Valid t) (hv : ∀ E, E.Sound → K E → E.registry.Valid v) :
    Checks C K (rule (checkAssignable · t v e)) fun E _ => isAssignable E.registry t v e = true :=
  .rule fun _ _ _ hE₀ hK₀ hok hE _ =>
    (isAssignable_later hE.registry e (ht _ hE₀ hK₀) (hv _ hE₀ hK₀)).trans
      (isAssignable_of_checkAssignable hok)

/-- An argument that is accepted is passed on. -/
theorem checks_checkArgument {param : Option TypeId} {t : TypeId} {arg : Expr}
    (ht : ∀ E, E.Sound → K E → E.registry.Valid t)
    (hp : ∀ E, E.Sound → K E → ∀ p ∈ param, E.registry.Valid p) :
    Checks C K (checkArgument param t arg) fun E _ => Passes E param t arg := by
  unfold checkArgument
  cases param with
  | some p => exact checks_checkAssignable (fun E hE hK => hp E hE hK p rfl) ht
  | none =>
    refine .registry_bind (fun _ => .ite (.throw _) (.pure _)) fun s G hG hK =>
      .test fun hstruct E _ hE => ?_
    show E.registry.isStruct t = false
    rw [hE.2.registry.isStruct_eq (ht _ hG.sound hK)]
    exact Bool.eq_false_iff.mpr hstruct

/-- What is assigned to is an object that takes a value. -/
theorem checks_checkTarget {target : Expr} {t : TypeId}
    (ht : ∀ E, E.Sound → K E → E.registry.Valid t)
    (hvoid : ∀ E, E.Sound → K E → isLvalue target = true → E.registry.isVoid t = false) :
    Checks C K (checkTarget target t) fun E _ => isLvalue target = true ∧ E.registry.Movable t := by
  unfold checkTarget
  refine .guard (.registry_bind fun _ => .ite (.throw _) (.pure _)) fun hlvalue =>
    .registry_bind (fun _ => .ite (.throw _) (.pure _)) fun s G hG hK =>
      .test fun harray E hsound hE => ?_
  have hlvalue : isLvalue target = true := by simpa using hlvalue
  refine ⟨hlvalue, Registry.movable_of (hvoid E hsound hE.1 hlvalue) ?_⟩
  rw [hE.2.registry.isArray_eq (ht _ hG.sound hK)]
  exact Bool.eq_false_iff.mpr harray

theorem checks_checkAssignment {op : Option BinaryOp} {t v : TypeId} {source : Expr} {span : Span}
    (ht : ∀ E, E.Sound → K E → E.registry.Valid t) (hv : ∀ E, E.Sound → K E → E.registry.Valid v) :
    Checks C K (checkAssignment op t v source span) fun E t' => t' = t ∧ Assigns E op t v source span := by
  unfold checkAssignment
  cases op with
  | none =>
    exact (checks_checkAssignable ht hv).bind fun _ => .pure fun E _ hE => ⟨rfl, hE.2⟩
  | some op =>
    refine Checks.bind (Q := fun E _ => checkCompound E.registry op t v span = .ok ()) (.rule ?_)
      fun _ => .pure fun E _ hE => ⟨rfl, hE.2⟩
    exact fun _ _ _ hE₀ hK₀ hok hE _ =>
      (checkCompound_later hE.registry hE₀.consistent op (ht _ hE₀ hK₀) (hv _ hE₀ hK₀) span).ok hok

theorem checks_checkStepped {operand : Expr} {t : TypeId} {span : Span}
    (ht : ∀ E, E.Sound → K E → E.registry.Valid t) :
    Checks C K (checkStepped operand t span) fun E t' => t' = t ∧ isLvalue operand = true ∧
      E.registry.isScalar t = true ∧ checkStep E.registry t span = .ok () := by
  refine .registry_bind (fun _ => .guard (.throw _) (.guard (.rule _) (.pure _)))
    fun s G hG hK => .guard (.guard (.rule _) (.pure _)) fun hscalar => ?_
  have hvalid := ht _ hG.sound hK
  simp only [Bool.or_eq_true, Bool.not_eq_true', not_or, Bool.not_eq_false] at hscalar
  obtain ⟨hlvalue, hscalar⟩ := hscalar
  have hlater (E : Env) (hE : Later (s.env G) E) : E.registry.isScalar t = true :=
    (hE.registry.isScalar_eq hvalid).trans hscalar
  split
  · refine Checks.bind (Q := fun E _ => checkStep E.registry t span = .ok ()) (.rule ?_)
      fun _ => .pure fun E _ hE => ⟨rfl, hlvalue, hlater E hE.1.2, hE.2⟩
    exact fun _ _ _ hE₀ hK₀ hok hE _ =>
      (checkStep_later hE.registry hE₀.consistent (ht _ hE₀ hK₀.1) span).ok hok
  · rename_i hpointer
    refine .pure fun E _ hE => ⟨rfl, hlvalue, hlater E hE.2, ?_⟩
    have hpointer : E.registry.isPointer t = false := by
      rw [hE.2.registry.isPointer_eq hvalid]
      exact Bool.eq_false_iff.mpr hpointer
    simp only [checkStep, Registry.pointee_of_not_isPointer hpointer]

theorem checks_checkIndex {base subscript : TypeId} {index : Expr} {span : Span}
    (hb : ∀ E, E.Sound → K E → E.registry.Valid base)
    (hs : ∀ E, E.Sound → K E → E.registry.Valid subscript) :
    Checks C K (checkIndex base subscript index span) fun E t =>
      E.registry.isInteger subscript = true ∧ elementType E.registry base span = .ok t := by
  refine .registry_bind (fun _ => .guard (.throw _) (.rule _)) fun s G hG hK =>
    .guard (.rule _) fun hint => .rule fun E₀ E _ hE₀ hK₀ hok hE hK => ⟨?_, ?_⟩
  · have hint : s.registry.isInteger subscript = true := by simpa using hint
    exact (hK.2.registry.isInteger_eq (hs _ hG.sound ‹_›)).trans hint
  · exact (elementType_later hE.registry hE₀.consistent (hb _ hE₀ hK₀.1) span).ok hok

theorem checks_addressType {operand : Expr} {t : TypeId} {span : Span}
    (ht : ∀ E, E.Sound → K E → E.registry.Valid t) :
    Checks C K (addressType operand t span) fun E t' =>
      isLvalue operand = true ∧ E.registry.ty t' = .pointer t := by
  unfold addressType
  refine .guard (.intern _ _) fun hlvalue => (checks_pointerTo ht).mono fun E t' _ _ hty => ⟨?_, hty⟩
  simpa using hlvalue

theorem checks_blockType {b : Block} {span : Span}
    (hb : ∀ E, E.Sound → K E → ∀ t, b.trailing?.bind (·.ty) = some t → E.registry.Valid t) :
    Checks C K (blockType b span) fun E t => Yields E b t ∧ E.registry.Valid t := by
  unfold blockType
  cases hlast : b.trailing?.bind (·.ty) with
  | some last =>
    refine (checks_decay fun E hE hK => hb E hE hK last hlast).mono fun E t _ _ ht => ⟨?_, ht.2⟩
    simpa only [Yields, hlast] using ht.1
  | none =>
    refine .pure fun E hE _ => ⟨?_, hE.consistent.valid_void⟩
    simp only [Yields, hlast]

/-- A value is returned only from a function that gives one. -/
theorem checks_checkReturn {v : TypeId} {e : Expr} (hv : ∀ E, E.Sound → K E → E.registry.Valid v) :
    Checks C K (checkReturn (.ok v) e) fun E _ => ∀ t, C.returns = some t →
      E.registry.isVoid t = false ∧ isAssignable E.registry t v e = true := by
  refine .lift_ok (.get_bind (fun s => ?_) fun s G hG _ => ?_)
  · split
    · exact .registry_bind fun _ => .guard (.throw _) (.rule _)
    · exact .pure _
  · split
    · rename_i ret hret
      rw [hG.returns] at hret
      refine .registry_bind (fun _ => .guard (.throw _) (.rule _)) fun s' G' hG' hK' =>
        .guard (.rule _) fun hvoid => ?_
      refine (checks_checkAssignable (fun E _ hE => hE.2.registry.valid (hG'.result ret hret))
        fun E hE hK => hv E hE hK.1.1).mono fun E _ _ hE hassign t ht => ?_
      obtain rfl : ret = t := Option.some.inj (hret.symm.trans ht)
      exact ⟨hE.2.not_isVoid (hG'.result ret hret) hvoid, hassign⟩
    · rename_i hret
      refine .pure fun E _ _ t ht => ?_
      rw [hG.returns, ht] at hret
      cases hret

theorem checks_checkStringInit {element : TypeId} {length : Nat} {text : String} {span : Span}
    (helement : ∀ E, E.Sound → K E → E.registry.Valid element) :
    Checks C K (checkStringInit element length text span) fun E _ =>
      E.registry.sizeOf element = 1 ∧ E.registry.isInteger element = true ∧
        text.utf8ByteSize ≤ length := by
  refine .registry_bind (fun _ => .guard (.throw _) (.ite (.throw _) (.pure _)))
    fun s G hG hK => .guard (.ite (.throw _) (.pure _)) fun hbytes => .test fun hlength E _ hE => ?_
  have hvalid := helement _ hG.sound hK
  simp only [Bool.or_eq_true, bne_iff_ne, ne_eq, Bool.not_eq_true', not_or, Decidable.not_not,
    Bool.not_eq_false] at hbytes
  rw [hE.2.registry.sizeOf_eq hvalid, hE.2.registry.isInteger_eq hvalid]
  exact ⟨hbytes.1, hbytes.2, Nat.le_of_not_lt hlength⟩

theorem checks_checkConstantInit (isGlobal : Bool) (e : Expr) :
    Checks C K (checkConstantInit isGlobal e) fun _ _ =>
      isGlobal = true → e.constant?.isSome = true :=
  .test fun hconstant _ _ _ hglobal => by
    simp only [hglobal, Bool.true_and, Option.isNone_iff_eq_none] at hconstant
    exact Option.isSome_iff_ne_none.mpr hconstant

theorem checks_checkExcess (cause : TypeCause) (items : List Initializer) (length : Nat) :
    Checks C K (checkExcess cause items length) fun _ _ => items.length ≤ length := by
  unfold checkExcess
  split
  · exact .throw _
  · rename_i hnone
    exact .pure fun _ _ _ => List.getElem?_eq_none_iff.mp hnone

/-- A member that is found is an object. -/
theorem Env.Sound.member {E : Env} {t : TypeId} {field : String} {m : MemberRef} (hE : E.Sound)
    (hm : E.registry.member t field = .ok m) :
    E.registry.Valid m.ty ∧ E.registry.isVoid m.ty = false := by
  refine ⟨hE.consistent.valid_member hm, ?_⟩
  unfold Registry.member Registry.asStruct? at hm
  cases hty : E.registry.ty t with
  | struct s =>
    simp only [hty] at hm
    split at hm
    · rename_i found hfound
      cases hm
      have hbuilt := (hE.consistent.entry t (Registry.valid_of_ty (by simp [hty]))).built
      rw [hty] at hbuilt
      exact hE.solid.members s hbuilt.1 found (List.mem_of_find?_eq_some hfound)
    · cases hm
  | _ => simp only [hty] at hm; cases hm

theorem checks_memberOf {object : TypeId} {field : String} {span : Span} :
    Checks C K (rule (memberOf · object field span)) fun E m =>
      E.registry.member object field = .ok m := by
  refine .rule fun E₀ E m hE₀ _ hok hE _ => ?_
  unfold memberOf at hok
  split at hok
  · rename_i hm
    cases hok
    exact hE.registry.member_eq_ok hE₀.consistent hm
  · cases hok

theorem checks_pointerMemberOf {pointer : TypeId} {field : String} {span : Span}
    (hp : ∀ E, E.Sound → K E → E.registry.Valid pointer) :
    Checks C K (rule (pointerMemberOf · pointer field span)) fun E m =>
      ∃ target, E.registry.pointee? pointer = some target ∧
        E.registry.member target field = .ok m := by
  refine .rule fun E₀ E m hE₀ hK₀ hok hE _ => ?_
  unfold pointerMemberOf at hok
  split at hok
  · rename_i target htarget
    refine ⟨target, (hE.registry.pointee_eq (hp E₀ hE₀ hK₀)).trans htarget, ?_⟩
    unfold memberOf at hok
    split at hok
    · rename_i hm
      cases hok
      exact hE.registry.member_eq_ok hE₀.consistent hm
    · cases hok
  · split at hok <;> cases hok

/-! Declarations. -/

theorem checks_queryType (q : SizeQuery) (ty : TypeExpr) :
    Checks C K (queryType q ty) fun _ _ => True :=
  (checks_resolveAt K 1 ty).bind fun _ => .rule fun _ _ _ _ _ _ _ _ => trivial

theorem checks_checkVariable (v : VarDecl) :
    Checks C K (checkVariable v) fun E t =>
      E.registry.Valid t ∧ E.registry.isVoid t = false ∧ Counted E v.ty v.init t :=
  (checks_resolveObject v.ty v.init).bind fun _ =>
    .registry_bind (fun _ => .guard (.throw _) (.pure _)) fun _ _ _ hK => .guard (.pure _) fun hvoid =>
      .pure fun _ _ hE => ⟨hE.1.2.1, hE.2.not_isVoid hK.2.1 hvoid, hE.1.2.2⟩

theorem checks_checkStructDecl (spec : StructSpec) :
    Checks C K (checkStructDecl spec) fun _ _ => True := by
  unfold checkStructDecl
  exact .guard ((quiet_resolveSpec 1 spec).bind fun _ => .pure _) fun _ =>
    (checks_resolveSpec K 1 spec).bind fun _ => .pure fun _ _ _ => trivial

theorem checks_inLoopOr (cause : NameCause) (span : Span) :
    Checks C K (inLoopOr cause span) fun _ _ => 0 < C.loops :=
  .get_bind (fun _ => .ite (.throw _) (.pure _)) fun _ _ hG _ => .test fun hdepth _ _ _ => by
    rw [hG.loops] at hdepth
    exact Nat.pos_of_ne_zero hdepth

/-- A function gives nothing or one scalar. -/
theorem checks_checkResult (returns : TypeExpr) :
    Checks C K (checkResult returns) fun E t => E.registry.Valid t ∧
      (E.registry.isVoid t = true ∨ E.registry.isScalar t = true) := by
  refine (checks_resolveAt K 1 returns).bind fun t =>
    .registry_bind (fun _ => .guard (.throw _) (.guard (.throw _) (.pure _))) fun s G hG hK =>
      .guard (.guard (.throw _) (.pure _)) fun hstruct => .guard (.pure _) fun harray =>
        .pure fun E _ hE => ⟨hE.1.2.1, ?_⟩
  have hvalid := hK.2.1
  have hstruct : E.registry.isStruct t = false :=
    (hE.2.registry.isStruct_eq hvalid).trans (Bool.eq_false_iff.mpr hstruct)
  have harray : E.registry.isArray t = false :=
    (hE.2.registry.isArray_eq hvalid).trans (Bool.eq_false_iff.mpr harray)
  cases hvoid : E.registry.isVoid t with
  | true => exact .inl rfl
  | false =>
    refine .inr ((Registry.movable_of hvoid harray).resolve_right ?_)
    simp [hstruct]

theorem checks_checkParam (hasBody : Bool) (p : ParamDecl) :
    Checks C K (checkParam hasBody p) fun E t =>
      E.registry.Movable t ∧ (hasBody = true → p.name.isSome = true) := by
  refine (checks_resolveParam p.ty).bind fun t =>
    .registry_bind (fun _ => .guard (.throw _) (.guard (.throw _) (.pure _))) fun s G hG hK =>
      .guard (.guard (.throw _) (.pure _)) fun hvoid => .guard (.pure _) fun hname =>
        .pure fun E _ hE => ⟨?_, fun hbody => ?_⟩
  · exact Registry.movable_of (hE.2.not_isVoid hK.2.1 hvoid) hE.1.2.2
  · simp only [hbody, Bool.true_and, Option.isNone_iff_eq_none] at hname
    exact Option.isSome_iff_ne_none.mpr hname

end MiniC.Typing
