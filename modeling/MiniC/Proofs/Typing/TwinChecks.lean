import MiniC.Proofs.Typing.Twins
/-!
Each check in two runs. Main statements: a check of kin types in linked states comes to kin results or to
the same failure, and so does what a written type stands for, unless one of its struct specifiers is
hidden.
-/
namespace MiniC.Typing

open Registry (Akin Fork Kin KinDecl KinTy Pair Within)
open Syntax Check

variable {α : Type} {W : Rift} {p q : Pair} {t t' u u' : TypeId}

namespace TwinCheck

/-- A rule that gives the same for both. -/
theorem same {f f' : Registry → Verdict α} (h : ∀ q, p ≤ q → Akin W.fork q → f q.left = f' q.right) :
    TwinCheck W p (Check.rule f) (Check.rule f') fun _ => Eq :=
  .rule fun q hle hq => .of_eq (h q hle hq)

/-- A rule that says no to both or to neither. -/
theorem allows {f f' : Registry → Verdict Unit}
    (h : ∀ q, p ≤ q → Akin W.fork q → f q.left = f' q.right) :
    TwinCheck W p (Check.rule f) (Check.rule f') fun _ _ _ => True :=
  (same h).mono fun _ _ _ _ => trivial

theorem intern {ty ty' : Ty} (h : KinTy W.fork p ty ty') (span : Span) :
    TwinCheck W p (Check.intern (·.intern ty) span) (Check.intern (·.intern ty') span)
      fun q => Kin W.fork q := by
  intro s s' hlinked hle
  rw [outcome_intern, outcome_intern]
  by_cases hroom : Full s
  · refine .inr (.inl ?_)
    cases hrun : s.registry.intern ty with
    | error e => exact hroom
    | ok y => exact Nat.le_trans hroom (Registry.within_intern hrun).size_le
  by_cases hroom' : Full s'
  · refine .inr (.inr ?_)
    cases hrun : s'.registry.intern ty' with
    | error e => exact hroom'
    | ok y => exact Nat.le_trans hroom' (Registry.within_intern hrun).size_le
  refine .inl ?_
  rcases hlinked.registry.intern (h.mono hle) (Nat.lt_of_not_le hroom) (Nat.lt_of_not_le hroom') with
    ⟨e, he, he'⟩ | ⟨q, t, t', ht, ht', hq, hakin, hkin⟩
  · rw [show s.registry.intern ty = _ from he, show s'.registry.intern ty' = _ from he']
    exact ⟨hlinked, le_rfl, .error _⟩
  · rw [show s.registry.intern ty = _ from ht, show s'.registry.intern ty' = _ from ht']
    exact ⟨hlinked.grow hq hakin, hq, .ok hkin⟩

theorem pointerTo (h : Kin W.fork p t t') (span : Span) :
    TwinCheck W p (pointerTo t span) (Check.pointerTo t' span) fun q => Kin W.fork q :=
  .intern (.pointer h) span

theorem arrayOf (h : Kin W.fork p t t') (length : Nat) (span : Span) :
    TwinCheck W p (arrayOf t length span) (Check.arrayOf t' length span) fun q => Kin W.fork q :=
  .intern (.array length h) span

theorem decay (h : Kin W.fork p t t') (span : Span) :
    TwinCheck W p (decay t span) (Check.decay t' span) fun q => Kin W.fork q := by
  refine .registry_bind fun q hle hq => ?_
  cases h.mono hle with
  | array k k' hu =>
    rw [k.2, k'.2]
    exact .pointerTo hu span
  | void k k' | int k k' | pointer k k' | struct k k' =>
    rw [k.2, k'.2]
    exact .pure fun q' hle' _ => (h.mono hle).mono hle'

theorem buildStruct {ds ds' : List MemberDecl} (hds : List.Forall₂ (KinDecl W.fork p) ds ds')
    (name : Option String) (span : Span) :
    TwinCheck W p (buildStruct name ds span) (Check.buildStruct name ds' span) fun q => Kin W.fork q := by
  intro s s' hlinked hle
  rw [outcome_buildStruct, outcome_buildStruct]
  by_cases hroom : Full s
  · exact .inr (.inl (Nat.le_trans hroom (Registry.within_buildStruct _ _ _).size_le))
  by_cases hroom' : Full s'
  · exact .inr (.inr (Nat.le_trans hroom' (Registry.within_buildStruct _ _ _).size_le))
  refine .inl ?_
  obtain ⟨q, hq, hakin, hresult⟩ := hlinked.registry.buildStruct (hds.imp fun _ _ h => h.mono hle) name
    (Nat.lt_of_not_le hroom) (Nat.lt_of_not_le hroom')
  rcases hresult with ⟨e, he, he'⟩ | ⟨t, t', ht, ht', hkin⟩
  · rw [show s.registry.buildStruct name ds = _ from he,
      show s'.registry.buildStruct name ds' = _ from he']
    exact ⟨hlinked.grow hq hakin, hq, .error _⟩
  · rw [show s.registry.buildStruct name ds = _ from ht,
      show s'.registry.buildStruct name ds' = _ from ht']
    exact ⟨hlinked.grow hq hakin, hq, .ok hkin⟩

theorem define {x x' : Symbol} (hx : KinSymbol W.fork p x x') :
    TwinCheck W p (define x) (Check.define x') fun _ _ _ => True := by
  intro s s' hlinked hle
  unfold Check.define
  rw [outcome_enter, outcome_enter]
  have hsymbol := hlinked.scope.inner.symbol? x.name
  unfold Scope.define
  rw [← hx.name, ← hx.span]
  revert hsymbol
  generalize s.scope.inner.symbol? x.name = y
  generalize s'.scope.inner.symbol? x.name = y'
  rintro (hy | _)
  · exact .inl ⟨hlinked, le_rfl, .error _⟩
  · exact .inl ⟨{ hlinked with scope := hlinked.scope.replace (hx.mono hle) }, le_rfl, .ok trivial⟩

theorem defineTag {x x' : StructTag} (hx : KinTag W.fork p x x') (span : Span) :
    TwinCheck W p (enter (·.defineTag x) span) (enter (·.defineTag x') span) fun _ _ _ => True := by
  intro s s' hlinked hle
  rw [outcome_enter, outcome_enter]
  have htag := hlinked.scope.inner.tag? x.name
  unfold Scope.defineTag
  rw [← hx.name]
  revert htag
  generalize s.scope.inner.tag? x.name = y
  generalize s'.scope.inner.tag? x.name = y'
  rintro (hy | _)
  · exact .inl ⟨hlinked, le_rfl, .error _⟩
  · exact .inl ⟨{ hlinked with
      scope := ⟨⟨hlinked.scope.inner.symbols, .cons (hx.mono hle) hlinked.scope.inner.tags⟩,
        hlinked.scope.outer⟩ }, le_rfl, .ok trivial⟩

end TwinCheck

/-! The named checks. -/

instance (name : String) (span : Span) : Enlarges (outcome (nameType name span)) :=
  (idles_nameType name span).enlarges

instance (callee : Expr) : Enlarges (outcome (calledFunction callee)) :=
  (idles_calledFunction callee).enlarges

instance (g : Signature) (got : Nat) (span : Span) : Enlarges (outcome (checkArgumentCount g got span)) :=
  (idles_checkArgumentCount g got span).enlarges

instance (param : Option TypeId) (t : TypeId) (arg : Expr) : Enlarges (outcome (checkArgument param t arg)) :=
  (idles_checkArgument param t arg).enlarges

instance (target : Expr) (t : TypeId) : Enlarges (outcome (checkTarget target t)) :=
  (idles_checkTarget target t).enlarges

instance (op : Option BinaryOp) (t v : TypeId) (e : Expr) (span : Span) :
    Enlarges (outcome (checkAssignment op t v e span)) := (idles_checkAssignment op t v e span).enlarges

instance (operand : Expr) (t : TypeId) (span : Span) : Enlarges (outcome (checkStepped operand t span)) :=
  (idles_checkStepped operand t span).enlarges

instance (base subscript : TypeId) (index : Expr) (span : Span) :
    Enlarges (outcome (checkIndex base subscript index span)) :=
  (idles_checkIndex base subscript index span).enlarges

instance (operand : Expr) (t : TypeId) (span : Span) : Enlarges (outcome (addressType operand t span)) :=
  (idles_addressType operand t span).enlarges

instance (b : Block) (span : Span) : Enlarges (outcome (blockType b span)) :=
  (idles_blockType b span).enlarges

instance (t : Verdict TypeId) (e : Expr) : Enlarges (outcome (checkReturn t e)) :=
  (idles_checkReturn t e).enlarges

instance (element : TypeId) (length : Nat) (text : String) (span : Span) :
    Enlarges (outcome (checkStringInit element length text span)) :=
  (idles_checkStringInit element length text span).enlarges

instance (isGlobal : Bool) (e : Expr) : Enlarges (outcome (checkConstantInit isGlobal e)) :=
  (idles_checkConstantInit isGlobal e).enlarges

instance (cause : TypeCause) (items : List Initializer) (length : Nat) :
    Enlarges (outcome (checkExcess cause items length)) := (idles_checkExcess cause items length).enlarges

instance (cause : NameCause) (span : Span) : Enlarges (outcome (inLoopOr cause span)) :=
  (idles_inLoopOr cause span).enlarges

instance (name : String) (ret : TypeId) (g : Signature) (span : Span) :
    Enlarges (outcome (declareFunction name ret g span)) := (idles_declareFunction name ret g span).enlarges

instance (ps : List ParamDecl) : Enlarges (outcome (defineParams ps)) := (idles_defineParams ps).enlarges

instance (t : TypeId) (span : Span) : Enlarges (outcome (decay t span)) := (Idles.decay t span).enlarges

instance (t : TypeId) (span : Span) : Enlarges (outcome (pointerTo t span)) :=
  (Idles.pointerTo t span).enlarges

instance (t : TypeId) (n : Nat) (span : Span) : Enlarges (outcome (arrayOf t n span)) :=
  (Idles.arrayOf t n span).enlarges

instance (t : TypeId) (span : Span) : Enlarges (outcome (checkElement t span)) :=
  (idles_checkElement t span).enlarges

instance (depth : Nat) (span : Span) : Enlarges (outcome (checkWritten depth span)) :=
  (idles_checkWritten depth span).enlarges

instance (x : Symbol) : Enlarges (outcome (define x)) := (Idles.define x).enlarges

theorem twin_nameType (name : String) (span : Span) :
    TwinCheck W p (nameType name span) (nameType name span) fun q => Kin W.fork q := by
  refine .get_bind fun s s' hlinked _ => ?_
  have hlookup := hlinked.scope.lookup name
  revert hlookup
  generalize s.scope.lookup name = x
  generalize s'.scope.lookup name = x'
  rintro (@⟨⟨_, kind, ty, _⟩, ⟨_, kind', ty', _⟩, hx⟩ | _)
  · rcases hx.kind with g | _ | hg
    · exact .pure fun q hle _ => hx.ty.mono hle
    · exact .pure fun q hle _ => hx.ty.mono hle
    · exact .throw _
  · exact .throw _

/-- A function with its result type. -/
def KinCallee (F : Fork) (q : Pair) (x x' : TypeId × Signature) : Prop :=
  Kin F q x.1 x'.1 ∧ KinSig F q x.2 x'.2

theorem twin_calledFunction (callee : Expr) :
    TwinCheck W p (calledFunction callee) (calledFunction callee) fun q => KinCallee W.fork q := by
  unfold calledFunction
  split
  · rename_i name _
    refine .get_bind fun s s' hlinked _ => ?_
    have hlookup := hlinked.scope.lookup name
    revert hlookup
    generalize s.scope.lookup name = x
    generalize s'.scope.lookup name = x'
    rintro (@⟨⟨_, kind, ty, _⟩, ⟨_, kind', ty', _⟩, hx⟩ | _)
    · rcases hx.kind with g | _ | hg
      · refine .registry_bind fun q hle hq => ?_
        rw [(hx.ty.mono hle).display hq]
        exact .throw _
      · refine .registry_bind fun q hle hq => ?_
        rw [(hx.ty.mono hle).display hq]
        exact .throw _
      · exact .pure fun q hle _ => ⟨hx.ty.mono hle, hg.mono hle⟩
    · exact .throw _
  · exact .throw _

theorem twin_checkArgumentCount {g g' : Signature} (h : KinSig W.fork p g g') (got : Nat) (span : Span) :
    TwinCheck W p (checkArgumentCount g got span) (checkArgumentCount g' got span) fun _ _ _ => True := by
  unfold checkArgumentCount
  simp only [h.params.length_eq, h.variadic]
  exact .ite Iff.rfl (.throw _) (.pure fun _ _ _ => trivial)

theorem twin_checkArgument {param param' : Option TypeId} (hparam : Option.Rel (Kin W.fork p) param param')
    (h : Kin W.fork p t t') {e e' : Expr} (he : Alike e e') :
    TwinCheck W p (checkArgument param t e) (checkArgument param' t' e') fun _ _ _ => True := by
  unfold checkArgument
  cases hparam with
  | some hu =>
    exact .allows fun q hle hq => checkAssignable_eq hq (hu.mono hle) (h.mono hle) he
  | none =>
    refine .registry_bind fun q hle hq => ?_
    rw [(h.mono hle).isStruct]
    simp only [Check.name, he.span]
    exact .ite Iff.rfl (.throw _) (.pure fun _ _ _ => trivial)

theorem twin_checkTarget (h : Kin W.fork p t t') {e e' : Expr} (he : Alike e e') :
    TwinCheck W p (checkTarget e t) (checkTarget e' t') fun _ _ _ => True := by
  unfold checkTarget
  rw [he.lvalue, he.span]
  refine .guard Iff.rfl (.throw _) (.registry_bind fun q hle hq => ?_)
  rw [(h.mono hle).isArray, (h.mono hle).display hq]
  exact .ite Iff.rfl (.throw _) (.pure fun _ _ _ => trivial)

theorem twin_checkAssignment (op : Option BinaryOp) (h : Kin W.fork p t t') (k : Kin W.fork p u u')
    {e e' : Expr} (he : Alike e e') (span : Span) :
    TwinCheck W p (checkAssignment op t u e span) (checkAssignment op t' u' e' span)
      fun q => Kin W.fork q := by
  unfold checkAssignment
  cases op with
  | none =>
    exact (TwinCheck.allows fun q hle hq => checkAssignable_eq hq (h.mono hle) (k.mono hle) he).bind
      fun q hle _ _ _ _ => .pure fun q' hle' _ => h.mono (hle.trans hle')
  | some op =>
    exact (TwinCheck.allows fun q hle hq => checkCompound_eq hq op (h.mono hle) (k.mono hle) span).bind
      fun q hle _ _ _ _ => .pure fun q' hle' _ => h.mono (hle.trans hle')

theorem twin_checkStepped (h : Kin W.fork p t t') {e e' : Expr} (he : Alike e e') (span : Span) :
    TwinCheck W p (checkStepped e t span) (checkStepped e' t' span) fun q => Kin W.fork q := by
  refine .registry_bind fun q hle hq => ?_
  rw [he.lvalue, he.span, (h.mono hle).isScalar, (h.mono hle).isPointer]
  exact .guard Iff.rfl (.throw _) (.guard Iff.rfl
    (.allows fun q' hle' hq' => checkStep_eq hq' (h.mono (hle.trans hle')) span)
    (.pure fun q' hle' _ => h.mono (hle.trans hle')))

theorem twin_checkIndex (h : Kin W.fork p t t') (k : Kin W.fork p u u') {e e' : Expr} (he : Alike e e')
    (span : Span) :
    TwinCheck W p (checkIndex t u e span) (checkIndex t' u' e' span) fun q => Kin W.fork q := by
  refine .registry_bind fun q hle hq => ?_
  rw [(k.mono hle).isInteger, he.span]
  exact .guard Iff.rfl (.throw _)
    (.rule fun q' hle' hq' => both_elementType hq' (h.mono (hle.trans hle')) span)

theorem twin_addressType (h : Kin W.fork p t t') {e e' : Expr} (he : Alike e e') (span : Span) :
    TwinCheck W p (addressType e t span) (addressType e' t' span) fun q => Kin W.fork q := by
  unfold addressType
  rw [he.lvalue]
  exact .guard Iff.rfl (.throw _) (.pointerTo h span)

theorem twin_checkReturn (h : Kin W.fork p t t') {e e' : Expr} (he : Alike e e') :
    TwinCheck W p (checkReturn (.ok t) e) (checkReturn (.ok t') e') fun _ _ _ => True := by
  refine .given (.get_bind fun s s' hlinked hle => ?_)
  have hreturns := hlinked.returns
  revert hreturns
  generalize s.returns = x
  generalize s'.returns = x'
  rintro (hret | _)
  · refine .registry_bind fun q hq _ => ?_
    rw [(hret.mono hq).isVoid, he.span]
    exact .guard Iff.rfl (.throw _) (.allows fun q' hq' hakin =>
      checkAssignable_eq hakin (hret.mono (hq.trans hq')) (h.mono (hle.trans (hq.trans hq'))) he)
  · exact .pure fun _ _ _ => trivial

theorem twin_checkStringInit (h : Kin W.fork p t t') (length : Nat) (text : String) (span : Span) :
    TwinCheck W p (checkStringInit t length text span) (checkStringInit t' length text span)
      fun _ _ _ => True := by
  refine .registry_bind fun q hle hq => ?_
  rw [(h.mono hle).sizeOf hq, (h.mono hle).isInteger]
  exact .guard Iff.rfl (.throw _) (.ite Iff.rfl (.throw _) (.pure fun _ _ _ => trivial))

theorem twin_checkConstantInit (isGlobal : Bool) {e e' : Expr} (he : Alike e e') :
    TwinCheck W p (checkConstantInit isGlobal e) (checkConstantInit isGlobal e') fun _ _ _ => True := by
  unfold checkConstantInit
  rw [he.constant, he.span]
  exact .ite Iff.rfl (.throw _) (.pure fun _ _ _ => trivial)

theorem twin_checkExcess (cause : TypeCause) (items : List Initializer) (length : Nat) :
    TwinCheck W p (checkExcess cause items length) (checkExcess cause items length) fun _ _ _ => True := by
  unfold checkExcess
  split
  · exact .throw _
  · exact .pure fun _ _ _ => trivial

theorem twin_inLoopOr (cause : NameCause) (span : Span) :
    TwinCheck W p (inLoopOr cause span) (inLoopOr cause span) fun _ _ _ => True := by
  refine .get_bind fun s s' hlinked _ => ?_
  rw [hlinked.loops]
  exact .ite Iff.rfl (.throw _) (.pure fun _ _ _ => trivial)

theorem twin_checkElement (h : Kin W.fork p t t') (span : Span) :
    TwinCheck W p (checkElement t span) (checkElement t' span) fun _ _ _ => True := by
  refine .registry_bind fun q hle _ => ?_
  rw [(h.mono hle).isVoid]
  exact .ite Iff.rfl (.throw _) (.pure fun _ _ _ => trivial)

theorem twin_checkWritten (depth : Nat) (span : Span) :
    TwinCheck W p (checkWritten depth span) (checkWritten depth span) fun _ _ _ => True := by
  refine .registry_bind fun q _ hq => ?_
  rw [hq.config]
  exact .ite Iff.rfl (.throw _) (.pure fun _ _ _ => trivial)

/-! What written types stand for. -/

mutual

theorem enlarges_resolveAt (depth : Nat) : ∀ ty, Enlarges (outcome (resolveAt depth ty))
  | ⟨kind, _, span⟩ => by
    rw [resolveAt]
    have := enlarges_resolveKind depth span kind
    infer_instance

theorem enlarges_resolveKind (depth : Nat) (span : Span) : ∀ kind,
    Enlarges (outcome (resolveKind depth span kind))
  | .void => by
    rw [resolveKind]
    infer_instance
  | .int width signed => by
    rw [resolveKind]
    exact ⟨fun _ => .refl _⟩
  | .pointer inner => by
    rw [resolveKind]
    have := enlarges_resolveAt (depth + 1) inner
    infer_instance
  | .array element size => by
    rw [resolveKind]
    have := enlarges_resolveAt (depth + 1) element
    cases size with
    | none =>
      simp only
      infer_instance
    | some length =>
      simp only
      infer_instance
  | .struct spec => by
    rw [resolveKind]
    exact enlarges_resolveSpec depth spec

theorem enlarges_resolveSpec (depth : Nat) : ∀ spec, Enlarges (outcome (resolveSpec depth spec))
  | ⟨id, name, members, span⟩ => by
    rw [resolveSpec]
    have hbody := enlarges_resolveBody depth name span members
    have hinsert (t : TypeId) : Enlarges (outcome (do
        modify fun s => { s with specs := s.specs.insert id t }
        return t)) := ⟨fun _ => .refl _⟩
    have hnew : Enlarges (outcome (do
        let t ← resolveBody depth name span members
        modify fun s => { s with specs := s.specs.insert id t }
        return t)) := inferInstance
    refine ⟨fun s => ?_⟩
    rw [outcome_get_bind]
    cases s.specs[id]? with
    | some t => exact .refl _
    | none => exact hnew.within s

theorem enlarges_resolveBody (depth : Nat) (tag : Option String) (span : Span) : ∀ members,
    Enlarges (outcome (resolveBody depth tag span members))
  | some members => by
    rw [resolveBody]
    have hmembers := enlarges_resolveMembers (depth + 1) members
    have hbuild (ds : List MemberDecl) : Enlarges (outcome (buildStruct tag ds span)) := ⟨fun s => by
      rw [outcome_buildStruct]
      exact Registry.within_buildStruct _ _ _⟩
    have henter (x : StructTag) : Enlarges (outcome (enter (·.defineTag x) span)) := ⟨fun s => by
      rw [outcome_enter]
      cases s.scope.defineTag x <;> exact .refl _⟩
    cases tag with
    | none =>
      simp only
      infer_instance
    | some name =>
      simp only
      infer_instance
  | none => by
    rw [resolveBody]
    refine ⟨fun s => ?_⟩
    show Within s.registry (outcome (match s.scope.lookupTag (tag.getD "") with
      | some t => return t
      | none => name (.unknownStruct (tag.getD "")) span) s).2.registry
    cases s.scope.lookupTag (tag.getD "") <;> exact .refl _

theorem enlarges_resolveMembers (depth : Nat) : ∀ members,
    Enlarges (outcome (resolveMembers depth members))
  | [] => by
    rw [resolveMembers]
    infer_instance
  | m :: ms => by
    rw [resolveMembers]
    have := enlarges_resolveMember depth m
    have := enlarges_resolveMembers depth ms
    infer_instance

theorem enlarges_resolveMember (depth : Nat) : ∀ m, Enlarges (outcome (resolveMember depth m))
  | ⟨name, ty, span⟩ => by
    rw [resolveMember]
    have := enlarges_resolveAt depth ty
    infer_instance

end

instance (depth : Nat) (ty : TypeExpr) : Enlarges (outcome (resolveAt depth ty)) :=
  enlarges_resolveAt depth ty

instance (depth : Nat) (spec : StructSpec) : Enlarges (outcome (resolveSpec depth spec)) :=
  enlarges_resolveSpec depth spec

instance (depth : Nat) (tag : Option String) (span : Span) (body : Option (List StructMember)) :
    Enlarges (outcome (resolveBody depth tag span body)) := enlarges_resolveBody depth tag span body

instance (depth : Nat) (ms : List StructMember) : Enlarges (outcome (resolveMembers depth ms)) :=
  enlarges_resolveMembers depth ms

instance (depth : Nat) (m : StructMember) : Enlarges (outcome (resolveMember depth m)) :=
  enlarges_resolveMember depth m

instance (ty : TypeExpr) : Enlarges (outcome (resolve ty)) := enlarges_resolveAt 1 ty

instance (name : Option String) (ds : List MemberDecl) (span : Span) :
    Enlarges (outcome (buildStruct name ds span)) := ⟨fun s => by
  rw [outcome_buildStruct]
  exact Registry.within_buildStruct _ _ _⟩

instance (x : StructTag) (span : Span) : Enlarges (outcome (enter (·.defineTag x) span)) := ⟨fun s => by
  rw [outcome_enter]
  cases s.scope.defineTag x <;> exact .refl _⟩

/-- None of the struct specifiers is hidden. -/
def Rift.Clear (W : Rift) (L : List StructSpec) : Prop := ∀ spec ∈ L, ¬ W.hidden spec.id

theorem clear_append {L L' : List StructSpec} : W.Clear (L ++ L') ↔ W.Clear L ∧ W.Clear L' :=
  List.forall_mem_append

theorem clear_cons {spec : StructSpec} {L : List StructSpec} :
    W.Clear (spec :: L) ↔ ¬ W.hidden spec.id ∧ W.Clear L :=
  List.forall_mem_cons

theorem kin_intType (h : Akin W.fork p) (width : IntWidth) (signed : Bool) :
    Kin W.fork p (intType p.left width signed) (intType p.right width signed) := by
  cases width with
  | long => exact kin_cLong h signed
  | char | short | int | longLong => exact kin_int h signed (by decide)

mutual

theorem twin_resolveAt (p : Pair) (depth : Nat) : ∀ ty, W.Clear ty.specs →
    TwinCheck W p (resolveAt depth ty) (resolveAt depth ty) fun q => Kin W.fork q
  | ⟨kind, _, span⟩, h => by
    rw [resolveAt]
    have := enlarges_resolveKind depth span kind
    rw [TypeExpr.specs] at h
    exact (twin_checkWritten depth span).bind fun q _ _ _ _ _ => twin_resolveKind q depth span kind h

theorem twin_resolveKind (p : Pair) (depth : Nat) (span : Span) : ∀ kind, W.Clear kind.specs →
    TwinCheck W p (resolveKind depth span kind) (resolveKind depth span kind) fun q => Kin W.fork q
  | .void, _ => by
    rw [resolveKind]
    exact .pure fun q _ hq => kin_void hq
  | .int width signed, _ => by
    rw [resolveKind]
    exact .registry_bind fun q _ hq => .pure fun q' hle _ => (kin_intType hq width signed).mono hle
  | .pointer inner, h => by
    rw [resolveKind]
    rw [TypeKind.specs] at h
    exact (twin_resolveAt p (depth + 1) inner h).bind fun q _ _ t t' ht => .pointerTo ht span
  | .array element size, h => by
    rw [resolveKind]
    rw [TypeKind.specs] at h
    cases size with
    | none =>
      exact (twin_resolveAt p (depth + 1) element h).bind fun q _ _ t t' ht =>
        (twin_checkElement ht element.span).bind fun _ _ _ _ _ _ => .throw _
    | some length =>
      exact (twin_resolveAt p (depth + 1) element h).bind fun q _ _ t t' ht =>
        (twin_checkElement ht element.span).bind fun _ hle _ _ _ _ => .arrayOf (ht.mono hle) length span
  | .struct spec, h => by
    rw [resolveKind]
    rw [TypeKind.specs] at h
    exact twin_resolveSpec p depth spec h

/-- A specifier that both runs have met, or neither. -/
theorem twin_resolveSpec (p : Pair) (depth : Nat) : ∀ spec, W.Clear spec.specs →
    TwinCheck W p (resolveSpec depth spec) (resolveSpec depth spec) fun q => Kin W.fork q
  | ⟨id, name, members, span⟩, h => by
    rw [resolveSpec]
    rw [StructSpec.specs] at h
    obtain ⟨hid, hinner⟩ := clear_cons.mp h
    have hnew (p : Pair) : TwinCheck W p
        (do
          let t ← resolveBody depth name span members
          modify fun s => { s with specs := s.specs.insert id t }
          return t)
        (do
          let t ← resolveBody depth name span members
          modify fun s => { s with specs := s.specs.insert id t }
          return t) fun q => Kin W.fork q := by
      have henlarges (t : TypeId) : Enlarges (outcome (do
          modify fun s => { s with specs := s.specs.insert id t }
          return t)) := ⟨fun _ => .refl _⟩
      refine (twin_resolveBody p depth name span members hinner).bind fun q _ _ t t' ht => ?_
      intro s s' hlinked hle
      refine .inl ⟨{ hlinked with specs := fun other hother => ?_ }, le_rfl, .ok (ht.mono hle)⟩
      show Option.Rel _ (s.specs.insert id t)[other]? (s'.specs.insert id t')[other]?
      rw [Table.getElem?_insert, Table.getElem?_insert]
      split
      · exact .some (ht.mono hle)
      · exact hlinked.specs other hother
    refine .get_bind fun s s' hlinked _ => ?_
    have hspec := hlinked.specs id hid
    revert hspec
    generalize s.specs[id]? = x
    generalize s'.specs[id]? = x'
    rintro (ht | _)
    · exact .pure fun q hle _ => ht.mono hle
    · exact hnew _

theorem twin_resolveBody (p : Pair) (depth : Nat) (tag : Option String) (span : Span) : ∀ body,
    W.Clear (specsOfBody body) →
    TwinCheck W p (resolveBody depth tag span body) (resolveBody depth tag span body)
      fun q => Kin W.fork q
  | some ms, h => by
    rw [resolveBody]
    rw [specsOfBody] at h
    cases tag with
    | none =>
      exact (twin_resolveMembers p (depth + 1) ms h).bind fun q _ _ ds ds' hds =>
        (TwinCheck.buildStruct hds none span).bind fun q' _ _ t t' ht =>
          .pure fun _ hle _ => ht.mono hle
    | some name =>
      refine (twin_resolveMembers p (depth + 1) ms h).bind fun q _ _ ds ds' hds =>
        (TwinCheck.buildStruct hds (some name) span).bind fun q' _ _ t t' ht => ?_
      have htag : KinTag W.fork q' ⟨name, t, span⟩ ⟨name, t', span⟩ := ⟨rfl, ht⟩
      exact (TwinCheck.defineTag htag span).bind fun _ hle _ _ _ _ =>
        .pure fun _ hle' _ => ht.mono (hle.trans hle')
  | none, _ => by
    rw [resolveBody]
    refine .get_bind fun s s' hlinked _ => ?_
    have htag := hlinked.scope.lookupTag (tag.getD "")
    revert htag
    generalize s.scope.lookupTag (tag.getD "") = x
    generalize s'.scope.lookupTag (tag.getD "") = x'
    rintro (ht | _)
    · exact .pure fun q hle _ => ht.mono hle
    · exact .throw _

theorem twin_resolveMembers (p : Pair) (depth : Nat) : ∀ ms, W.Clear (specsOfMembers ms) →
    TwinCheck W p (resolveMembers depth ms) (resolveMembers depth ms)
      fun q => List.Forall₂ (KinDecl W.fork q)
  | [], _ => by
    rw [resolveMembers]
    exact .pure fun _ _ _ => .nil
  | m :: ms, h => by
    rw [resolveMembers]
    rw [specsOfMembers] at h
    obtain ⟨hm, hms⟩ := clear_append.mp h
    exact (twin_resolveMember p depth m hm).bind fun q _ _ d d' hd =>
      (twin_resolveMembers q depth ms hms).bind fun q' hle _ ds ds' hds =>
        .pure fun _ hle' _ => .cons (hd.mono (hle.trans hle')) (hds.imp fun _ _ h => h.mono hle')

theorem twin_resolveMember (p : Pair) (depth : Nat) : ∀ m, W.Clear m.specs →
    TwinCheck W p (resolveMember depth m) (resolveMember depth m) fun q => KinDecl W.fork q
  | ⟨name, ty, span⟩, h => by
    rw [resolveMember]
    rw [StructMember.specs] at h
    refine (twin_resolveAt p depth ty h).bind fun q _ _ t t' ht => .registry_bind fun q' hle _ => ?_
    rw [(ht.mono hle).isVoid]
    exact .guard Iff.rfl (.throw _) (.pure fun _ hle' _ => ⟨rfl, ht.mono (hle.trans hle'), rfl⟩)

end

theorem twin_resolveObject (ty : TypeExpr) (init : Option Initializer) (h : W.Clear ty.specs) :
    TwinCheck W p (resolveObject ty init) (resolveObject ty init) fun q => Kin W.fork q := by
  obtain ⟨kind, qualifiers, span⟩ := ty
  have hplain : TwinCheck W p (resolve ⟨kind, qualifiers, span⟩) (resolve ⟨kind, qualifiers, span⟩)
      fun q => Kin W.fork q := twin_resolveAt p 1 _ h
  unfold resolveObject
  cases kind with
  | array element size =>
    cases size with
    | some length => exact hplain
    | none =>
      simp only
      rw [TypeExpr.specs, TypeKind.specs] at h
      cases impliedLength? init with
      | none => exact .throw _
      | some length =>
        exact (twin_resolveAt p 2 element h).bind fun q _ _ t t' ht =>
          (twin_checkElement ht element.span).bind fun _ hle _ _ _ _ => .arrayOf (ht.mono hle) length span
  | void | int | pointer | struct => exact hplain

theorem twin_resolveParam (ty : TypeExpr) (h : W.Clear ty.specs) :
    TwinCheck W p (resolveParam ty) (resolveParam ty) fun q => Kin W.fork q := by
  obtain ⟨kind, qualifiers, span⟩ := ty
  unfold resolveParam
  cases kind with
  | array element size =>
    rw [TypeExpr.specs, TypeKind.specs] at h
    exact (twin_resolveAt p 2 element h).bind fun q _ _ t t' ht => .pointerTo ht span
  | void | int | pointer | struct => exact twin_resolveAt p 1 _ h

instance (ty : TypeExpr) (init : Option Initializer) : Enlarges (outcome (resolveObject ty init)) := by
  unfold resolveObject
  split
  · split <;> infer_instance
  · infer_instance

instance (ty : TypeExpr) : Enlarges (outcome (resolveParam ty)) := by
  unfold resolveParam
  split <;> infer_instance

end MiniC.Typing
