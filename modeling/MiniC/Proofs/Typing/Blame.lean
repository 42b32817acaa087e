import MiniC.Proofs.Syntax.Demands
import MiniC.Proofs.Typing.Quiet
/-!
What failures point to. Main statement: the failures that analysis records point to places that the
tree has, also where the layout of a type is at fault.
-/
namespace MiniC

/-- All places that an error points to. -/
def LayoutError.spans : LayoutError → List Span
  | duplicateMember _ span previous => [span, previous]
  | unknownMember _ _ span | notAStruct _ span | indexOnNonArray _ span | typeTooDeep _ span |
    typeTooLarge span => [span]

def Typing.TypingError.spans : Typing.TypingError → List Span
  | .name _ span => [span]
  | .type _ span => [span]
  | .layout e => e.spans

namespace LayoutError

variable {P : Span → Prop} {e : LayoutError} {span : Span}

/-- Nowhere yet, or at good places only. -/
def Placeable (P : Span → Prop) (e : LayoutError) : Prop :=
  e.spans = [Span.nowhere] ∨ ∀ x ∈ e.spans, P x

theorem Placeable.place (h : e.Placeable P) (hspan : P span) : ∀ x ∈ (e.place span).spans, P x := by
  unfold LayoutError.place
  rcases h with h | h
  · cases e <;> simp_all [LayoutError.spans, LayoutError.span, LayoutError.withSpan]
  · split
    · cases e <;> simp_all [LayoutError.spans, LayoutError.withSpan]
    · exact h

end LayoutError

namespace Registry

open LayoutError

variable {P : Span → Prop} {r : Registry} {e : LayoutError}

theorem placeable_insert {info : TypeInfo} (h : r.insert info = .error e) : e.Placeable P := by
  unfold insert at h
  split at h
  · cases h
  · cases h
    exact .inl rfl

theorem placeable_checkDepth {depth : Nat} (h : r.checkDepth depth = .error e) : e.Placeable P := by
  unfold checkDepth at h
  split at h
  · cases h
    exact .inl rfl
  · cases h

theorem placeable_measure {ty : Ty} (h : r.measure ty = .error e) : e.Placeable P := by
  unfold measure at h
  split at h
  any_goals cases h
  simp only at h
  split at h
  · cases h
  · cases h
    exact .inl rfl

theorem placeable_intern {ty : Ty} (h : r.intern ty = .error e) : e.Placeable P := by
  unfold intern at h
  split at h
  · cases h
  · split at h
    · rename_i hmeasure
      cases h
      exact placeable_measure hmeasure
    · split at h
      · rename_i hdepth
        cases h
        exact placeable_checkDepth hdepth
      · exact placeable_insert h

theorem placeable_addStruct {s : StructType} (h : r.addStruct s = .error e) : e.Placeable P := by
  unfold addStruct at h
  split at h
  · rename_i hdepth
    cases h
    exact placeable_checkDepth hdepth
  · exact placeable_insert h

theorem placeable_finishStruct {d : StructDraft} {name : Option String}
    (h : (r.finishStruct d name).1 = .error e) : e.Placeable P := by
  unfold finishStruct StructDraft.finish at h
  split at h
  · rename_i hfinish
    split at hfinish
    · cases hfinish
      cases h
      exact .inl rfl
    · cases hfinish
  · split at h
    · rename_i hadd
      cases h
      exact placeable_addStruct hadd
    · cases h

/-- An error in the list of members points to members of it. -/
theorem placeable_placeAll {ms : List MemberDecl} (hms : ∀ m ∈ ms, P m.span) :
    ∀ {r : Registry} {d : StructDraft}, (∀ m ∈ d.members, P m.span) →
      match (r.placeAll d ms).1 with
      | .ok _ => True
      | .error e => e.Placeable P := by
  induction ms with
  | nil => exact fun _ => trivial
  | cons m ms ih =>
    intro r d hd
    obtain ⟨hm, hms⟩ := List.forall_mem_cons.mp hms
    rw [placeAll]
    cases hplace : d.place (r.noteName m.name) m with
    | error e =>
      simp only
      unfold StructDraft.place at hplace
      split at hplace
      · rename_i previous hfind
        cases hplace
        exact .inr (List.forall_mem_cons.mpr
          ⟨hm, List.forall_mem_singleton.mpr (hd _ (List.mem_of_find?_eq_some hfind))⟩)
      · split at hplace
        · cases hplace
          exact .inr (List.forall_mem_singleton.mpr hm)
        · cases hplace
    | ok d' =>
      simp only
      refine ih hms ?_
      unfold StructDraft.place at hplace
      split at hplace
      · cases hplace
      · split at hplace
        · cases hplace
        · cases hplace
          exact List.forall_mem_append.mpr ⟨hd, List.forall_mem_singleton.mpr hm⟩

theorem placeable_buildStruct {ms : List MemberDecl} {name : Option String}
    (hms : ∀ m ∈ ms, P m.span) (h : (r.buildStruct name ms).1 = .error e) : e.Placeable P := by
  have hplace := placeable_placeAll hms (r := r) (d := .empty) (List.forall_mem_nil _)
  unfold buildStruct at h
  split at h
  · rename_i hall
    rw [hall] at hplace
    cases h
    exact hplace
  · exact placeable_finishStruct h

theorem placeable_member {t : TypeId} {name : String} (h : r.member t name = .error e) :
    e.Placeable P := by
  unfold member at h
  split at h
  · cases h
    exact .inl rfl
  · split at h
    · cases h
    · cases h
      exact .inl rfl

end Registry

namespace Typing

open Syntax Check

variable {α β γ τ : Type} {P : Span → Prop} {Q : α → Prop} {R : β → Prop} {r : Registry} {span : Span}

/-- The value is as wanted, or the failure points to good places. -/
def Points (P : Span → Prop) (Q : α → Prop) : Verdict α → Prop
  | .ok a => Q a
  | .error e => ∀ x ∈ e.spans, P x

/-- A failure points to good places. -/
abbrev Sited (P : Span → Prop) (v : Verdict α) : Prop := Points P (fun _ => True) v

namespace Points

theorem name {cause : NameCause} (h : P span) : Points P Q (.error (.name cause span)) :=
  List.forall_mem_singleton.mpr h

theorem type {cause : TypeCause} (h : P span) : Points P Q (.error (.type cause span)) :=
  List.forall_mem_singleton.mpr h

theorem layout {e : LayoutError} (h : e.Placeable P) (hspan : P span) :
    Points P Q (.error (.ofLayout e span)) := h.place hspan

theorem map {f : α → β} {v : Verdict α} (h : Points P Q v) (hf : ∀ a, Q a → R (f a)) :
    Points P R (v.map f) := by
  cases v with
  | ok a => exact hf a h
  | error e => exact h

theorem sited {v : Verdict α} (h : Points P Q v) : Sited P v := by
  cases v with
  | ok a => trivial
  | error e => exact h

end Points

/-! The rules. -/

theorem sited_checkStep {t : TypeId} (h : P span) : Sited P (checkStep r t span) := by
  unfold checkStep
  split
  · split
    · exact .type h
    · trivial
  · trivial

theorem sited_pointerType {op : BinaryOp} {left right : TypeId} (h : P span) :
    Sited P (pointerType r op left right span) := by
  unfold pointerType
  split
  iterate 4 exact (sited_checkStep h).map fun _ _ => trivial
  exact .type h

theorem sited_binaryType {op : BinaryOp} {left right : TypeId} (h : P span) :
    Sited P (binaryType r op left right span) := by
  unfold binaryType
  split
  · exact .type h
  · split
    · trivial
    · split
      · exact sited_pointerType h
      · split <;> trivial

theorem sited_conditionalType {yes no : TypeId} {y n : Expr} (h : P span) :
    Sited P (conditionalType r yes no y n span) := by
  unfold conditionalType
  iterate 5 refine iteInduction (fun _ => trivial) fun _ => ?_
  exact .type h

theorem sited_checkAssignable {target value : TypeId} {e : Expr} (h : P e.span) :
    Sited P (checkAssignable r target value e) := by
  unfold checkAssignable
  refine iteInduction (fun _ => trivial) fun _ => ?_
  exact iteInduction (fun _ => .type h) fun _ => .type h

theorem sited_checkScalar {t : TypeId} (h : P span) : Sited P (checkScalar r t span) :=
  iteInduction (fun _ => trivial) fun _ => .type h

theorem sited_checkCondition {t : TypeId} (h : P span) : Sited P (checkCondition r t span) :=
  iteInduction (fun _ => trivial) fun _ => .type h

theorem sited_unaryType {op : UnaryOp} {t : TypeId} {operandSpan : Span} (ho : P operandSpan)
    (h : P span) : Sited P (unaryType r op t operandSpan span) := by
  unfold unaryType
  split
  · exact (sited_checkScalar ho).map fun _ _ => trivial
  · exact iteInduction (fun _ => trivial) fun _ => .type h
  · exact iteInduction (fun _ => trivial) fun _ => .type h

theorem sited_checkCompound {op : BinaryOp} {target value : TypeId} (h : P span) :
    Sited P (checkCompound r op target value span) := by
  unfold checkCompound
  split
  · exact iteInduction (fun _ => sited_checkStep h) fun _ => .type h
  · split
    · exact (sited_binaryType h).map fun _ _ => trivial
    · exact .type h

theorem sited_elementType {base : TypeId} (h : P span) : Sited P (elementType r base span) := by
  unfold elementType
  split
  · exact iteInduction (fun _ => .type h) fun _ => trivial
  · exact List.forall_mem_singleton.mpr h

theorem sited_memberOf {object : TypeId} {field : String} (h : P span) :
    Sited P (memberOf r object field span) := by
  unfold memberOf
  split
  · trivial
  · rename_i hmember
    exact .layout (Registry.placeable_member hmember) h

theorem sited_pointerMemberOf {pointer : TypeId} {field : String} (h : P span) :
    Sited P (pointerMemberOf r pointer field span) := by
  unfold pointerMemberOf
  split
  · exact sited_memberOf h
  · exact iteInduction (fun _ => .type h) fun _ => List.forall_mem_singleton.mpr h

theorem sited_derefType {t : TypeId} (h : P span) : Sited P (derefType r t span) := by
  unfold derefType
  split
  · exact iteInduction (fun _ => .type h) fun _ => trivial
  · exact .type h

theorem sited_checkCast {target source : TypeId} {operandSpan : Span} (ho : P operandSpan)
    (h : P span) : Sited P (checkCast r target source operandSpan span) := by
  unfold checkCast
  refine iteInduction (fun _ => trivial) fun _ => ?_
  exact iteInduction (fun _ => (sited_checkScalar ho).map fun _ _ => trivial) fun _ => .type h

theorem sited_checkQuery {q : SizeQuery} {t : TypeId} (h : P span) :
    Sited P (checkQuery r q t span) := by
  unfold checkQuery
  split
  · exact .type h
  · split <;> trivial

/-! Analyses. -/

/-- The result is as wanted, and all failures on record point to good places if those before did. -/
def Reports (P : Span → Prop) (Q : α → Prop) (act : Analysis α) : Prop :=
  ∀ s : State, (∀ e ∈ s.errors, ∀ x ∈ e.spans, P x) →
    Q (act s).1 ∧ ∀ e ∈ (act s).2.errors, ∀ x ∈ e.spans, P x

namespace Reports

theorem pure {a : α} (h : Q a) : Reports P Q (Pure.pure a : Analysis α) := fun _ hs => ⟨h, hs⟩

theorem bind {x : Analysis α} {k : α → Analysis β} (h : Reports P Q x)
    (hk : ∀ a, Q a → Reports P R (k a)) : Reports P R (x >>= k) := fun s hs =>
  hk _ (h s hs).1 _ (h s hs).2

theorem mono {Q' : α → Prop} {x : Analysis α} (h : Reports P Q x) (hQ : ∀ a, Q a → Q' a) :
    Reports P Q' x := fun s hs => ⟨hQ _ (h s hs).1, (h s hs).2⟩

theorem get_bind {k : State → Analysis β} (hk : ∀ s, Reports P R (k s)) :
    Reports P R (get >>= k) := fun s hs => hk s s hs

theorem modify_bind {f : State → State} {k : PUnit → Analysis β} (hf : ∀ s : State, (f s).errors = s.errors)
    (hk : Reports P R (k ⟨⟩)) : Reports P R (modify f >>= k) := fun s hs =>
  hk (f s) (by rwa [hf s])

theorem inScope {act : Analysis α} (h : Reports P Q act) : Reports P Q (inScope act) :=
  modify_bind (fun _ => rfl) (h.bind fun _ ha => modify_bind (fun _ => rfl) (.pure ha))

theorem inLoop {act : Analysis α} (h : Reports P Q act) : Reports P Q (inLoop act) :=
  modify_bind (fun _ => rfl) (h.bind fun _ ha => modify_bind (fun _ => rfl) (.pure ha))

theorem record_bind {e : TypingError} {k : PUnit → Analysis β} (he : ∀ x ∈ e.spans, P x)
    (hk : Reports P R (k ⟨⟩)) : Reports P R (record e >>= k) := fun _ hs =>
  hk _ fun e' he' => (Array.mem_push.mp he').elim (hs e') fun h => h ▸ he

end Reports

/-- A check that points to good places if it fails. -/
abbrev Blames (P : Span → Prop) (Q : α → Prop) (c : Check α) : Prop :=
  Reports P (Points P Q) (outcome c)

namespace Blames

theorem pure {a : α} (h : Q a) : Blames P Q (Pure.pure a : Check α) := fun _ hs => ⟨h, hs⟩

theorem lift {v : Verdict α} (h : Points P Q v) : Blames P Q (liftM v : Check α) := by
  cases v <;> exact fun _ hs => ⟨h, hs⟩

theorem name {cause : NameCause} (h : P span) : Blames P Q (Check.name cause span) :=
  fun _ hs => ⟨.name h, hs⟩

theorem type {cause : TypeCause} (h : P span) : Blames P Q (Check.type cause span) :=
  fun _ hs => ⟨.type h, hs⟩

theorem bind {c : Check α} {k : α → Check β} (hc : Blames P Q c)
    (hk : ∀ a, Q a → Blames P R (k a)) : Blames P R (c >>= k) := by
  intro s hs
  have hfirst := hc s hs
  rw [outcome_bind]
  cases h : outcome c s with
  | mk v s' =>
    rw [h] at hfirst
    cases v with
    | ok a => exact hk a hfirst.1 s' hfirst.2
    | error e => exact hfirst

theorem get_bind {k : State → Check β} (hk : ∀ s, Blames P R (k s)) : Blames P R (get >>= k) :=
  fun s hs => hk s s hs

theorem registry_bind {k : Registry → Check β} (hk : ∀ r, Blames P R (k r)) :
    Blames P R (Check.registry >>= k) := fun s hs => hk s.registry s hs

theorem modify_bind {f : State → State} {k : PUnit → Check β} (hf : ∀ s : State, (f s).errors = s.errors)
    (hk : Blames P R (k ⟨⟩)) : Blames P R (modify f >>= k) := fun s hs =>
  hk (f s) (by rwa [hf s])

/-- Past a test that only fails. -/
theorem guard {p : Prop} [Decidable p] {c : Check PUnit} {k : PUnit → Check β}
    (hc : Blames P (fun _ => True) c) (hk : Blames P R (k ⟨⟩)) :
    Blames P R (if p then c >>= k else k ⟨⟩) :=
  iteInduction (fun _ => hc.bind fun _ _ => hk) fun _ => hk

theorem rule {f : Registry → Verdict α} (h : ∀ r, Points P Q (f r)) : Blames P Q (rule f) := by
  intro s hs
  rw [outcome_rule]
  exact ⟨h _, hs⟩

theorem intern {f : Registry → Except LayoutError (TypeId × Registry)}
    (hf : ∀ {r e}, f r = .error e → e.Placeable P) (h : P span) :
    Blames P (fun _ => True) (intern f span) := by
  intro s hs
  rw [outcome_intern]
  cases hx : f s.registry with
  | ok y => exact ⟨trivial, hs⟩
  | error e => exact ⟨.layout (hf hx) h, hs⟩

theorem pointerTo {t : TypeId} (h : P span) : Blames P (fun _ => True) (pointerTo t span) :=
  intern Registry.placeable_intern h

theorem arrayOf {t : TypeId} {length : Nat} (h : P span) :
    Blames P (fun _ => True) (arrayOf t length span) :=
  intern Registry.placeable_intern h

theorem buildStruct {tag : Option String} {decls : List MemberDecl} (hdecls : ∀ m ∈ decls, P m.span)
    (h : P span) : Blames P (fun _ => True) (buildStruct tag decls span) := by
  intro s hs
  rw [outcome_buildStruct]
  refine ⟨?_, hs⟩
  cases hx : (s.registry.buildStruct tag decls).1 with
  | ok y => trivial
  | error e => exact .layout (Registry.placeable_buildStruct hdecls hx) h

theorem enter {f : Scope → Except ScopeError Scope} (h : P span) :
    Blames P (fun _ => True) (enter f span) := by
  intro s hs
  rw [outcome_enter]
  cases f s.scope with
  | ok scope => exact ⟨trivial, hs⟩
  | error e => exact ⟨.name h, hs⟩

theorem decay {t : TypeId} (h : P span) : Blames P (fun _ => True) (decay t span) := by
  refine registry_bind fun r => ?_
  split
  · exact pointerTo h
  · exact .pure trivial

end Blames

variable {D : Demands}

/-! Types as they are written. -/

theorem blames_checkWritten (depth : Nat) (h : P span) :
    Blames P (fun _ => True) (checkWritten depth span) :=
  .registry_bind fun _ => iteInduction
    (fun _ => fun _ hs => ⟨List.forall_mem_singleton.mpr h, hs⟩) fun _ => .pure trivial

theorem blames_checkElement (t : TypeId) (h : P span) :
    Blames P (fun _ => True) (checkElement t span) :=
  .registry_bind fun _ => iteInduction (fun _ => .type h) fun _ => .pure trivial

mutual

theorem blames_resolveAt (depth : Nat) : ∀ ty, D.type ty →
    Blames D.place (fun _ => True) (resolveAt depth ty)
  | ⟨kind, _, span⟩, ⟨hspan, hkind⟩ => by
    rw [resolveAt]
    exact (blames_checkWritten depth hspan).bind fun _ _ => blames_resolveKind depth hspan kind hkind

theorem blames_resolveKind (depth : Nat) {span : Span} (hspan : D.place span) : ∀ kind,
    D.typeKind kind → Blames D.place (fun _ => True) (resolveKind depth span kind)
  | .void, _ => by
    rw [resolveKind]
    exact .pure trivial
  | .int width signed, _ => by
    rw [resolveKind]
    exact .registry_bind fun _ => .pure trivial
  | .pointer inner, h => by
    rw [resolveKind]
    exact (blames_resolveAt (depth + 1) inner h).bind fun _ _ => .pointerTo hspan
  | .array element size, h => by
    rw [resolveKind]
    refine (blames_resolveAt (depth + 1) element h).bind fun _ _ =>
      (blames_checkElement _ (D.type_iff.mp h).1).bind fun _ _ => ?_
    cases size with
    | some length => exact .arrayOf hspan
    | none => exact .type hspan
  | .struct spec, h => by
    rw [resolveKind]
    exact blames_resolveSpec depth spec h

theorem blames_resolveSpec (depth : Nat) : ∀ spec, D.spec spec →
    Blames D.place (fun _ => True) (resolveSpec depth spec)
  | ⟨id, name, members, span⟩, ⟨hspan, hmembers⟩ => by
    rw [resolveSpec]
    refine .get_bind fun s => ?_
    cases s.specs[id]? with
    | some t => exact .pure trivial
    | none =>
      exact (blames_resolveBody depth name hspan members hmembers).bind fun _ _ =>
        .modify_bind (fun _ => rfl) (.pure trivial)

theorem blames_resolveBody (depth : Nat) (tag : Option String) {span : Span} (hspan : D.place span) :
    ∀ members, D.members? members →
      Blames D.place (fun _ => True) (resolveBody depth tag span members)
  | some members, h => by
    rw [resolveBody]
    refine (blames_resolveMembers (depth + 1) members h).bind fun decls hdecls =>
      (Blames.buildStruct hdecls hspan).bind fun t _ => ?_
    cases tag with
    | some name => exact (Blames.enter hspan).bind fun _ _ => .pure trivial
    | none => exact .pure trivial
  | none, _ => by
    rw [resolveBody]
    refine .get_bind fun s => ?_
    cases s.scope.lookupTag (tag.getD "") with
    | some t => exact .pure trivial
    | none => exact .name hspan

theorem blames_resolveMembers (depth : Nat) : ∀ ms, D.members ms →
    Blames D.place (fun decls => ∀ m ∈ decls, D.place m.span) (resolveMembers depth ms)
  | [], _ => by
    rw [resolveMembers]
    exact .pure (List.forall_mem_nil _)
  | m :: ms, ⟨hm, hms⟩ => by
    rw [resolveMembers]
    exact (blames_resolveMember depth m hm).bind fun _ hdecl =>
      (blames_resolveMembers depth ms hms).bind fun _ hdecls =>
        .pure (List.forall_mem_cons.mpr ⟨hdecl, hdecls⟩)

theorem blames_resolveMember (depth : Nat) : ∀ m, D.member m →
    Blames D.place (fun decl => D.place decl.span) (resolveMember depth m)
  | ⟨name, ty, span⟩, ⟨hspan, hty⟩ => by
    rw [resolveMember]
    exact (blames_resolveAt depth ty hty).bind fun _ _ => .registry_bind fun _ =>
      .guard (.type hspan) (.pure hspan)

end

theorem blames_resolve {ty : TypeExpr} (h : D.type ty) : Blames D.place (fun _ => True) (resolve ty) :=
  blames_resolveAt 1 ty h

theorem blames_resolveObject {ty : TypeExpr} {init : Option Initializer} (h : D.type ty) :
    Blames D.place (fun _ => True) (resolveObject ty init) := by
  obtain ⟨hspan, hkind⟩ := D.type_iff.mp h
  unfold resolveObject
  split
  · rename_i element hty
    rw [hty] at hkind
    split
    · exact (blames_resolveAt 2 _ hkind).bind fun _ _ =>
        (blames_checkElement _ (D.type_iff.mp hkind).1).bind fun _ _ => .arrayOf hspan
    · exact .type hspan
  · exact blames_resolve h

theorem blames_resolveParam {ty : TypeExpr} (h : D.type ty) :
    Blames D.place (fun _ => True) (resolveParam ty) := by
  obtain ⟨hspan, hkind⟩ := D.type_iff.mp h
  unfold resolveParam
  split
  · rename_i element size hty
    rw [hty] at hkind
    exact (blames_resolveAt 2 _ hkind).bind fun _ _ => .pointerTo hspan
  · exact blames_resolve h

/-! Expressions, declarations and functions. -/

theorem blames_nameType {name : String} (h : P span) :
    Blames P (fun _ => True) (nameType name span) := by
  refine .get_bind fun s => ?_
  split
  · exact .type h
  · exact .pure trivial
  · exact .name h

theorem blames_calledFunction {callee : Expr} (h : P callee.span) :
    Blames P (fun _ => True) (calledFunction callee) := by
  unfold calledFunction
  split
  · refine .get_bind fun s => ?_
    split
    · exact .pure trivial
    · exact .registry_bind fun _ => .type h
    · exact .name h
  · exact .type h

theorem blames_checkArgumentCount {sig : Signature} {got : Nat} (h : P span) :
    Blames P (fun _ => True) (checkArgumentCount sig got span) :=
  iteInduction (fun _ => .type h) fun _ => .pure trivial

theorem blames_checkArgument {param : Option TypeId} {t : TypeId} {arg : Expr} (h : P arg.span) :
    Blames P (fun _ => True) (checkArgument param t arg) := by
  unfold checkArgument
  split
  · exact .rule fun _ => sited_checkAssignable h
  · exact .registry_bind fun _ => iteInduction (fun _ => .name h) fun _ => .pure trivial

theorem blames_checkTarget {target : Expr} {t : TypeId} (h : P target.span) :
    Blames P (fun _ => True) (checkTarget target t) :=
  .guard (.type h) (.registry_bind fun _ => iteInduction (fun _ => .type h) fun _ => .pure trivial)

theorem blames_checkAssignment {op : Option BinaryOp} {t v : TypeId} {value : Expr}
    (hvalue : P value.span) (h : P span) :
    Blames P (fun _ => True) (checkAssignment op t v value span) := by
  unfold checkAssignment
  split
  · exact (Blames.rule fun _ => sited_checkAssignable hvalue).bind fun _ _ => .pure trivial
  · exact (Blames.rule fun _ => sited_checkCompound h).bind fun _ _ => .pure trivial

theorem blames_checkStepped {operand : Expr} {t : TypeId} (ho : P operand.span) (h : P span) :
    Blames P (fun _ => True) (checkStepped operand t span) :=
  .registry_bind fun _ => .guard (.type ho)
    (.guard (.rule fun _ => sited_checkStep h) (.pure trivial))

theorem blames_checkIndex {base subscript : TypeId} {index : Expr} (hi : P index.span) (h : P span) :
    Blames P (fun _ => True) (checkIndex base subscript index span) :=
  .registry_bind fun _ => .guard (.type hi) (.rule fun _ => sited_elementType h)

theorem blames_addressType {operand : Expr} {t : TypeId} (h : P span) :
    Blames P (fun _ => True) (addressType operand t span) :=
  .guard (.type h) (.pointerTo h)

theorem blames_blockType {b : Block} (h : P span) : Blames P (fun _ => True) (blockType b span) := by
  unfold blockType
  split
  · exact .decay h
  · exact .pure trivial

theorem blames_checkReturn {t : Verdict TypeId} {value : Expr} (ht : Sited P t) (h : P value.span) :
    Blames P (fun _ => True) (checkReturn t value) := by
  refine (Blames.lift ht).bind fun t _ => .get_bind fun s => ?_
  split
  · exact .registry_bind fun _ => .guard (.type h) (.rule fun _ => sited_checkAssignable h)
  · exact .pure trivial

theorem blames_checkStringInit {element : TypeId} {length : Nat} {text : String} (h : P span) :
    Blames P (fun _ => True) (checkStringInit element length text span) :=
  .registry_bind fun _ => .guard (.type h) (iteInduction (fun _ => .type h) fun _ => .pure trivial)

theorem blames_checkConstantInit {isGlobal : Bool} {e : Expr} (h : P e.span) :
    Blames P (fun _ => True) (checkConstantInit isGlobal e) :=
  iteInduction (fun _ => .name h) fun _ => .pure trivial

/-- An initializer has a good place. -/
theorem place_initializer {i : Initializer} (h : D.initializer i) : D.place i.span := by
  cases i with
  | expr e => exact (D.expr_iff.mp h).1
  | list items span => exact h.1

theorem blames_checkExcess {cause : TypeCause} {items : List Initializer} {length : Nat}
    (h : D.initializers items) : Blames D.place (fun _ => True) (checkExcess cause items length) := by
  unfold checkExcess
  split
  · rename_i extra hextra
    exact .type (place_initializer (D.initializers_iff.mp h extra (List.mem_of_getElem? hextra)))
  · exact .pure trivial

theorem blames_queryType {q : SizeQuery} {ty : TypeExpr} (h : D.type ty) :
    Blames D.place (fun _ => True) (queryType q ty) :=
  (blames_resolve h).bind fun _ _ => .rule fun _ => sited_checkQuery (D.type_iff.mp h).1

theorem blames_checkVariable {v : VarDecl} (hspan : D.place v.span) (h : D.type v.ty) :
    Blames D.place (fun _ => True) (checkVariable v) :=
  (blames_resolveObject h).bind fun _ _ => .registry_bind fun _ =>
    .guard (.type hspan) (.pure trivial)

theorem blames_checkStructDecl {spec : StructSpec} (h : D.spec spec) :
    Blames D.place (fun _ => True) (checkStructDecl spec) := by
  have hspan : D.place spec.span := by
    cases spec
    exact h.1
  exact .guard (.name hspan) ((blames_resolveSpec 1 spec h).bind fun _ _ => .pure trivial)

theorem blames_inLoopOr {cause : NameCause} (h : P span) :
    Blames P (fun _ => True) (inLoopOr cause span) :=
  .get_bind fun _ => iteInduction (fun _ => .name h) fun _ => .pure trivial

theorem blames_checkResult {returns : TypeExpr} (h : D.type returns) :
    Blames D.place (fun _ => True) (checkResult returns) := by
  obtain ⟨hspan, -⟩ := D.type_iff.mp h
  exact (blames_resolve h).bind fun _ _ => .registry_bind fun _ =>
    .guard (.name hspan) (.guard (.type hspan) (.pure trivial))

theorem blames_checkParam {hasBody : Bool} {p : ParamDecl} (h : D.param p) :
    Blames D.place (fun _ => True) (checkParam hasBody p) :=
  (blames_resolveParam h.2).bind fun _ _ => .registry_bind fun _ =>
    .guard (.type h.1) (.guard (.name h.1) (.pure trivial))

/-! Analyses of trees. -/

/-- A tree as wanted, with a verdict that points to good places. -/
def Told (P : Span → Prop) (T : τ → Prop) (x : τ × Verdict α) : Prop := T x.1 ∧ Sited P x.2

/-- What comes of an expression has its place. -/
abbrev ToldAt (P : Span → Prop) (span : Span) (x : Expr × Verdict α) : Prop :=
  Told P (·.span = span) x

theorem ToldAt.place {x : Expr × Verdict α} (h : ToldAt P span x) (hspan : P span) : P x.1.span := by
  rw [h.1]
  exact hspan

theorem Sited.both {v : Verdict α} {w : Verdict β} (hv : Sited P v) (hw : Sited P w) :
    Sited P (both v w) := by
  cases v with
  | ok a =>
    cases w with
    | ok b => trivial
    | error e => exact hw
  | error e => exact hv

namespace Reports

theorem andThen {T : τ → Prop} {earlier : Verdict β} {tree : τ} {act : Analysis (τ × Verdict α)}
    (he : Sited P earlier) (htree : T tree) (h : Reports P (Told P T) act) :
    Reports P (Told P T) (andThen earlier tree act) := by
  cases earlier with
  | ok b => exact h
  | error e => exact .pure ⟨htree, he⟩

theorem andThenAt {earlier : Verdict β} {e : Expr} {act : Analysis (Expr × Verdict α)}
    (he : Sited P earlier) (h : Reports P (ToldAt P e.span) act) :
    Reports P (ToldAt P e.span) (Typing.andThen earlier e act) :=
  andThen (T := fun e' : Expr => e'.span = e.span) he rfl h

variable {kind : ExprKind} {ty : Option TypeId}

theorem typed {c : Check TypeId} (h : Blames P (fun _ => True) c) :
    Reports P (ToldAt P span) (typed kind span ty c) := by
  refine Reports.bind h fun v hv => ?_
  cases v with
  | ok t => exact .pure ⟨rfl, trivial⟩
  | error e => exact .pure ⟨rfl, hv⟩

theorem folded {c : Check Nat} (h : Blames P (fun _ => True) c) :
    Reports P (ToldAt P span) (folded kind span ty c) := by
  refine Reports.bind h fun v hv => ?_
  cases v with
  | ok n => exact .get_bind fun _ => .pure ⟨rfl, trivial⟩
  | error e => exact .pure ⟨rfl, hv⟩

theorem memberExpr {form : Option MemberRef → ExprKind} {old : Option MemberRef} {c : Check MemberRef}
    (h : Blames P (fun _ => True) c) : Reports P (ToldAt P span) (memberExpr form span ty old c) := by
  refine Reports.bind h fun v hv => ?_
  cases v with
  | ok m => exact .pure ⟨rfl, trivial⟩
  | error e => exact .pure ⟨rfl, hv⟩

end Reports

mutual

theorem reports_expr : ∀ e, D.expr e → Reports D.place (ToldAt D.place e.span) (expr e)
  | ⟨kind, span, ty⟩, ⟨hspan, _, hkind⟩ => by
    rw [expr]
    exact reports_exprKind hspan ty kind hkind

theorem reports_value : ∀ e, D.expr e → Reports D.place (ToldAt D.place e.span) (value e)
  | ⟨kind, span, ty⟩, ⟨hspan, _, hkind⟩ => by
    rw [value]
    refine (reports_exprKind hspan ty kind hkind).bind fun x hx => ?_
    exact Reports.bind ((Blames.lift hx.2).bind fun _ _ => .decay hspan) fun v hv => .pure ⟨hx.1, hv⟩

theorem reports_exprKind {span : Span} (hspan : D.place span) (ty : Option TypeId) : ∀ k,
    D.exprKind k → Reports D.place (ToldAt D.place span) (exprKind span ty k)
  | .integer n, _ => by
    rw [exprKind]
    exact .typed (.pure trivial)
  | .character b, _ => by
    rw [exprKind]
    exact .typed (.pure trivial)
  | .string text, _ => by
    rw [exprKind]
    exact .typed (.arrayOf hspan)
  | .name name, _ => by
    rw [exprKind]
    exact .typed (blames_nameType hspan)
  | .binary op left right, ⟨hleft, hright⟩ => by
    rw [exprKind]
    refine (reports_value left hleft).bind fun l hl =>
      (Reports.andThenAt hl.2 (reports_value right hright)).bind fun r hr => .typed ?_
    exact (Blames.lift hl.2).bind fun _ _ => (Blames.lift hr.2).bind fun _ _ =>
      .rule fun _ => sited_binaryType hspan
  | .unary op operand, h => by
    rw [exprKind]
    refine (reports_value operand h).bind fun o ho => .typed ?_
    exact (Blames.lift ho.2).bind fun _ _ =>
      .rule fun _ => sited_unaryType (ho.place (D.expr_iff.mp h).1) hspan
  | .assign op target source, ⟨htarget, hsource⟩ => by
    rw [exprKind]
    refine (reports_expr target htarget).bind fun t ht => ?_
    refine Reports.bind ((Blames.lift ht.2).bind fun _ _ =>
      blames_checkTarget (ht.place (D.expr_iff.mp htarget).1)) fun checked hchecked => ?_
    refine (Reports.andThenAt hchecked (reports_value source hsource)).bind fun v hv => .typed ?_
    exact (Blames.lift hchecked).bind fun _ _ => (Blames.lift ht.2).bind fun _ _ =>
      (Blames.lift hv.2).bind fun _ _ =>
        blames_checkAssignment (hv.place (D.expr_iff.mp hsource).1) hspan
  | .conditional cond yes no, ⟨hcond, hyes, hno⟩ => by
    rw [exprKind]
    refine (reports_condition cond hcond).bind fun c hc =>
      (Reports.andThenAt hc.2 (reports_value yes hyes)).bind fun y hy =>
        (Reports.andThenAt (hc.2.both hy.2) (reports_value no hno)).bind fun n hn => .typed ?_
    exact (Blames.lift hc.2).bind fun _ _ => (Blames.lift hy.2).bind fun _ _ =>
      (Blames.lift hn.2).bind fun _ _ => .rule fun _ => sited_conditionalType hspan
  | .call callee args, ⟨hcallee, hargs⟩ => by
    rw [exprKind]
    refine Reports.bind (Q := Sited D.place) ((blames_calledFunction (D.expr_iff.mp hcallee).1).bind
      fun _ _ => (blames_checkArgumentCount hspan).bind fun _ _ => .pure trivial) fun f hf => ?_
    cases f with
    | error e => exact .pure ⟨rfl, hf⟩
    | ok f =>
      refine (reports_arguments f.2.params args hargs).bind fun a ha => .typed ?_
      exact (Blames.lift ha.2).bind fun _ _ => .pure trivial
  | .index array index, ⟨harray, hindex⟩ => by
    rw [exprKind]
    refine (reports_expr array harray).bind fun a ha =>
      (Reports.andThenAt ha.2 (reports_value index hindex)).bind fun i hi => .typed ?_
    exact (Blames.lift ha.2).bind fun _ _ => (Blames.lift hi.2).bind fun _ _ =>
      blames_checkIndex (hi.place (D.expr_iff.mp hindex).1) hspan
  | .member object field old, h => by
    rw [exprKind]
    refine (reports_expr object h).bind fun o ho => .memberExpr ?_
    exact (Blames.lift ho.2).bind fun _ _ => .rule fun _ => sited_memberOf hspan
  | .pointerMember pointer field old, h => by
    rw [exprKind]
    refine (reports_value pointer h).bind fun p hp => .memberExpr ?_
    exact (Blames.lift hp.2).bind fun _ _ => .rule fun _ => sited_pointerMemberOf hspan
  | .cast target operand, ⟨htarget, hoperand⟩ => by
    rw [exprKind]
    refine Reports.bind (blames_resolve htarget) fun t ht =>
      (Reports.andThenAt ht (reports_value operand hoperand)).bind fun o ho => .typed ?_
    exact (Blames.lift ht).bind fun _ _ => (Blames.lift ho.2).bind fun _ _ =>
      .rule fun _ => sited_checkCast (ho.place (D.expr_iff.mp hoperand).1) hspan
  | .query q operand, h => by
    rw [exprKind]
    refine (reports_expr operand h).bind fun o ho => .folded ?_
    exact (Blames.lift ho.2).bind fun _ _ =>
      .rule fun _ => sited_checkQuery (ho.place (D.expr_iff.mp h).1)
  | .typeQuery q target, h => by
    rw [exprKind]
    exact .folded (blames_queryType h)
  | .addressOf operand, h => by
    rw [exprKind]
    refine (reports_expr operand h).bind fun o ho => .typed ?_
    exact (Blames.lift ho.2).bind fun _ _ => blames_addressType hspan
  | .deref operand, h => by
    rw [exprKind]
    refine (reports_value operand h).bind fun o ho => .typed ?_
    exact (Blames.lift ho.2).bind fun _ _ => .rule fun _ => sited_derefType hspan
  | .step operand decrement yieldsOld, h => by
    rw [exprKind]
    refine (reports_expr operand h).bind fun o ho => .typed ?_
    exact (Blames.lift ho.2).bind fun _ _ =>
      blames_checkStepped (ho.place (D.expr_iff.mp h).1) hspan
  | .comma items, h => by
    rw [exprKind]
    exact (reports_values Registry.void items h).bind fun is his => .typed (.lift his.2)
  | .block b, h => by
    rw [exprKind]
    refine (Reports.inScope (Q := Told D.place fun _ => True) ((reports_block false b h).bind
      fun x hx => Reports.bind ((Blames.lift hx.2).bind fun _ _ => blames_blockType hspan)
        fun v hv => .pure ⟨trivial, hv⟩)).bind fun x hx => .typed (.lift hx.2)

theorem reports_condition : ∀ e, D.expr e →
    Reports D.place (ToldAt D.place e.span) (condition e)
  | ⟨kind, span, ty⟩, ⟨hspan, _, hkind⟩ => by
    rw [condition]
    refine (reports_exprKind hspan ty kind hkind).bind fun x hx => ?_
    exact Reports.bind ((Blames.lift hx.2).bind fun _ _ => (Blames.decay hspan).bind fun _ _ =>
      .rule fun _ => sited_checkCondition hspan) fun v hv => .pure ⟨hx.1, hv⟩

theorem reports_values (last : TypeId) : ∀ es, D.exprs es →
    Reports D.place (Told D.place fun _ => True) (values last es)
  | [], _ => by
    rw [values]
    exact .pure ⟨trivial, trivial⟩
  | e :: es, ⟨he, hes⟩ => by
    rw [values]
    refine (reports_value e he).bind fun x hx => ?_
    obtain ⟨e', t⟩ := x
    cases t with
    | error err => exact .pure ⟨trivial, hx.2⟩
    | ok t => exact (reports_values t es hes).bind fun _ hrest => .pure ⟨trivial, hrest.2⟩

theorem reports_arguments (params : List TypeId) : ∀ es, D.exprs es →
    Reports D.place (Told D.place fun _ => True) (arguments params es)
  | [], _ => by
    rw [arguments]
    exact .pure ⟨trivial, trivial⟩
  | e :: es, ⟨he, hes⟩ => by
    rw [arguments]
    refine (reports_value e he).bind fun x hx => ?_
    refine Reports.bind ((Blames.lift hx.2).bind fun _ _ =>
      blames_checkArgument (hx.place (D.expr_iff.mp he).1)) fun v hv => ?_
    exact (Reports.andThen hv trivial (reports_arguments params.tail es hes)).bind fun _ hrest =>
      .pure ⟨trivial, hrest.2⟩

theorem reports_block (recover : Bool) : ∀ b, D.block b →
    Reports D.place (Told D.place fun _ => True) (block recover b)
  | ⟨items, span⟩, ⟨_, h⟩ => by
    rw [block]
    exact (reports_blockItems recover items h).bind fun _ hx => .pure ⟨trivial, hx.2⟩

theorem reports_blockItems (recover : Bool) : ∀ is, D.blockItems is →
    Reports D.place (Told D.place fun _ => True) (blockItems recover is)
  | [], _ => by
    rw [blockItems]
    exact .pure ⟨trivial, trivial⟩
  | i :: is, ⟨hi, his⟩ => by
    rw [blockItems]
    refine (reports_blockItem i hi).bind fun x hx => ?_
    obtain ⟨i', done⟩ := x
    have hrest : Reports D.place (Told D.place fun _ => True) (do
        let (is, rest) ← blockItems recover is
        return (i' :: is, rest)) :=
      (reports_blockItems recover is his).bind fun _ hrest => .pure ⟨trivial, hrest.2⟩
    cases done with
    | ok _ => exact hrest
    | error e => exact iteInduction (fun _ => .record_bind hx.2 hrest) fun _ => .pure ⟨trivial, hx.2⟩

theorem reports_blockItem : ∀ i, D.blockItem i →
    Reports D.place (Told D.place fun _ => True) (blockItem i)
  | .statement s, h => by
    rw [blockItem]
    exact (reports_stmt s h).bind fun _ hx => .pure ⟨trivial, hx.2⟩
  | .declaration d, h => by
    rw [blockItem]
    exact (reports_declaration d h).bind fun _ hx => .pure ⟨trivial, hx.2⟩

theorem reports_stmt : ∀ s, D.stmt s → Reports D.place (Told D.place fun _ => True) (stmt s)
  | ⟨kind, span⟩, ⟨hspan, h⟩ => by
    rw [stmt]
    exact (reports_stmtKind hspan kind h).bind fun _ hx => .pure ⟨trivial, hx.2⟩

theorem reports_stmtKind {span : Span} (hspan : D.place span) : ∀ k, D.stmtKind k →
    Reports D.place (Told D.place fun _ => True) (stmtKind span k)
  | .expr e, h => by
    rw [stmtKind]
    exact (reports_expr e h).bind fun _ hx => .pure ⟨trivial, hx.2.map fun _ _ => trivial⟩
  | .empty, _ => by
    rw [stmtKind]
    exact .pure ⟨trivial, trivial⟩
  | .block b, h => by
    rw [stmtKind]
    exact (Reports.inScope (reports_block true b h)).bind fun _ hx => .pure ⟨trivial, hx.2⟩
  | .if_ cond yes no, ⟨hcond, hyes, hno⟩ => by
    rw [stmtKind]
    exact (reports_condition cond hcond).bind fun c hc =>
      (Reports.andThen hc.2 trivial (reports_stmt yes hyes)).bind fun y hy =>
        (Reports.andThen (hc.2.both hy.2) trivial (reports_stmt? no hno)).bind fun n hn =>
          .pure ⟨trivial, hc.2.both (hy.2.both hn.2)⟩
  | .loop kind init cond update body, ⟨hinit, hcond, hupdate, hbody⟩ => by
    rw [stmtKind]
    refine .inScope ((reports_loopInit? init hinit).bind fun i hi =>
      (Reports.andThen hi.2 trivial (reports_condition? cond hcond)).bind fun c hc => ?_)
    have hbefore := hi.2.both hc.2
    refine (Reports.andThen hbefore trivial (reports_expr? update hupdate)).bind fun u hu => ?_
    have hbefore := hbefore.both hu.2
    exact (Reports.andThen hbefore trivial (.inLoop (reports_stmt body hbody))).bind fun b hb =>
      .pure ⟨trivial, hbefore.both hb.2⟩
  | .break_, _ => by
    rw [stmtKind]
    exact Reports.bind (blames_inLoopOr hspan) fun v hv => .pure ⟨trivial, hv⟩
  | .continue_, _ => by
    rw [stmtKind]
    exact Reports.bind (blames_inLoopOr hspan) fun v hv => .pure ⟨trivial, hv⟩
  | .return_ e, h => by
    rw [stmtKind]
    refine .get_bind fun s => iteInduction (fun _ => .pure ⟨trivial, .name hspan⟩) fun _ => ?_
    exact (reports_returned? e h).bind fun _ hx => .pure ⟨trivial, hx.2⟩

theorem reports_stmt? : ∀ s, D.stmt? s → Reports D.place (Told D.place fun _ => True) (stmt? s)
  | none, _ => by
    rw [stmt?]
    exact .pure ⟨trivial, trivial⟩
  | some s, h => by
    rw [stmt?]
    exact (reports_stmt s h).bind fun _ hx => .pure ⟨trivial, hx.2⟩

theorem reports_expr? : ∀ e, D.expr? e → Reports D.place (Told D.place fun _ => True) (expr? e)
  | none, _ => by
    rw [expr?]
    exact .pure ⟨trivial, trivial⟩
  | some e, h => by
    rw [expr?]
    exact (reports_expr e h).bind fun _ hx => .pure ⟨trivial, hx.2.map fun _ _ => trivial⟩

theorem reports_condition? : ∀ e, D.expr? e →
    Reports D.place (Told D.place fun _ => True) (condition? e)
  | none, _ => by
    rw [condition?]
    exact .pure ⟨trivial, trivial⟩
  | some e, h => by
    rw [condition?]
    exact (reports_condition e h).bind fun _ hx => .pure ⟨trivial, hx.2⟩

theorem reports_returned? : ∀ e, D.expr? e →
    Reports D.place (Told D.place fun _ => True) (returned? e)
  | none, _ => by
    rw [returned?]
    exact .pure ⟨trivial, trivial⟩
  | some e, h => by
    rw [returned?]
    exact (reports_value e h).bind fun x hx => Reports.bind
      (blames_checkReturn hx.2 (hx.place (D.expr_iff.mp h).1)) fun v hv => .pure ⟨trivial, hv⟩

theorem reports_loopInit? : ∀ i, D.loopInit? i →
    Reports D.place (Told D.place fun _ => True) (loopInit? i)
  | none, _ => by
    rw [loopInit?]
    exact .pure ⟨trivial, trivial⟩
  | some i, h => by
    rw [loopInit?]
    exact (reports_loopInit i h).bind fun _ hx => .pure ⟨trivial, hx.2⟩

theorem reports_loopInit : ∀ i, D.loopInit i →
    Reports D.place (Told D.place fun _ => True) (loopInit i)
  | .expr e, h => by
    rw [loopInit]
    exact (reports_expr e h).bind fun _ hx => .pure ⟨trivial, hx.2.map fun _ _ => trivial⟩
  | .declaration d, h => by
    rw [loopInit]
    exact (reports_declaration d h).bind fun _ hx => .pure ⟨trivial, hx.2⟩

theorem reports_declaration : ∀ d, D.declaration d →
    Reports D.place (Told D.place fun _ => True) (declaration d)
  | ⟨kind, span⟩, ⟨_, h⟩ => by
    rw [declaration]
    exact (reports_declKind kind h).bind fun _ hx => .pure ⟨trivial, hx.2⟩

theorem reports_declKind : ∀ k, D.declKind k →
    Reports D.place (Told D.place fun _ => True) (declKind k)
  | .vars vars, h => by
    rw [declKind]
    exact (reports_varDecls vars h).bind fun _ hx => .pure ⟨trivial, hx.2⟩
  | .struct spec, h => by
    rw [declKind]
    exact Reports.bind (blames_checkStructDecl h) fun v hv => .pure ⟨trivial, hv⟩

theorem reports_varDecls : ∀ vs, D.varDecls vs →
    Reports D.place (Told D.place fun _ => True) (varDecls vs)
  | [], _ => by
    rw [varDecls]
    exact .pure ⟨trivial, trivial⟩
  | v :: vs, ⟨hv, hvs⟩ => by
    rw [varDecls]
    exact (reports_varDecl v hv).bind fun x hx =>
      (Reports.andThen hx.2 trivial (reports_varDecls vs hvs)).bind fun _ hrest =>
        .pure ⟨trivial, hrest.2⟩

theorem reports_varDecl : ∀ v, D.varDecl v →
    Reports D.place (Told D.place fun _ => True) (varDecl v)
  | ⟨name, ty, init, span, resolved⟩, ⟨_, hspan, hty, hinit⟩ => by
    rw [varDecl]
    refine Reports.bind (blames_checkVariable hspan hty) fun t ht => ?_
    cases t with
    | error e => exact .pure ⟨trivial, ht⟩
    | ok t =>
      refine .get_bind fun s => Reports.bind (Blames.enter hspan) fun defined hdefined => ?_
      exact (Reports.andThen hdefined trivial (reports_initializer? t _ init hinit)).bind
        fun _ hx => .pure ⟨trivial, hx.2⟩

theorem reports_initializer? (t : TypeId) (isGlobal : Bool) : ∀ i, D.initializer? i →
    Reports D.place (Told D.place fun _ => True) (initializer? t isGlobal i)
  | none, _ => by
    rw [initializer?]
    exact .pure ⟨trivial, trivial⟩
  | some i, h => by
    rw [initializer?]
    exact (reports_initializer t isGlobal i h).bind fun _ hx => .pure ⟨trivial, hx.2⟩

theorem reports_initializer (t : TypeId) (isGlobal : Bool) : ∀ i, D.initializer i →
    Reports D.place (Told D.place fun _ => True) (initializer t isGlobal i)
  | .expr e, h => by
    rw [initializer]
    exact (reports_initialValue t isGlobal e h).bind fun _ hx => .pure ⟨trivial, hx.2⟩
  | .list items span, ⟨hspan, h⟩ => by
    rw [initializer]
    refine .get_bind fun s => ?_
    cases listTarget s.registry t with
    | elements element length =>
      exact Reports.bind (blames_checkExcess h) fun few hfew =>
        (Reports.andThen hfew trivial (reports_elementInits element isGlobal items h)).bind
          fun _ hx => .pure ⟨trivial, hx.2⟩
    | members types =>
      exact Reports.bind (blames_checkExcess h) fun few hfew =>
        (Reports.andThen hfew trivial (reports_memberInits types isGlobal items h)).bind
          fun _ hx => .pure ⟨trivial, hx.2⟩
    | scalar =>
      exact (reports_scalarInit t isGlobal hspan items h).bind fun _ hx => .pure ⟨trivial, hx.2⟩

theorem reports_initialValue (t : TypeId) (isGlobal : Bool) : ∀ e, D.expr e →
    Reports D.place (Told D.place fun _ => True) (initialValue t isGlobal e)
  | ⟨kind, span, ty⟩, ⟨hspan, _, hkind⟩ => by
    have hvalue := reports_exprKind hspan ty kind hkind
    rw [initialValue]
    refine .get_bind fun s => ?_
    split
    · refine Reports.bind (blames_checkStringInit hspan) fun v hv => ?_
      cases v with
      | error e => exact .pure ⟨trivial, hv⟩
      | ok _ =>
        exact hvalue.bind fun _ hx => .pure ⟨trivial, hx.2.map fun _ _ => trivial⟩
    · exact .pure ⟨trivial, .type hspan⟩
    · refine hvalue.bind fun x hx => ?_
      exact Reports.bind ((Blames.lift hx.2).bind fun _ _ => (Blames.decay hspan).bind fun _ _ =>
        (Blames.rule fun _ => sited_checkAssignable (hx.place hspan)).bind fun _ _ =>
          blames_checkConstantInit (hx.place hspan)) fun v hv => .pure ⟨trivial, hv⟩

theorem reports_elementInits (element : TypeId) (isGlobal : Bool) : ∀ is, D.initializers is →
    Reports D.place (Told D.place fun _ => True) (elementInits element isGlobal is)
  | [], _ => by
    rw [elementInits]
    exact .pure ⟨trivial, trivial⟩
  | i :: is, ⟨hi, his⟩ => by
    rw [elementInits]
    exact (reports_initializer element isGlobal i hi).bind fun x hx =>
      (Reports.andThen hx.2 trivial (reports_elementInits element isGlobal is his)).bind
        fun _ hrest => .pure ⟨trivial, hrest.2⟩

theorem reports_memberInits (types : List TypeId) (isGlobal : Bool) : ∀ is, D.initializers is →
    Reports D.place (Told D.place fun _ => True) (memberInits types isGlobal is)
  | [], _ => by
    rw [memberInits]
    exact .pure ⟨trivial, trivial⟩
  | i :: is, ⟨hi, his⟩ => by
    cases types with
    | nil =>
      rw [memberInits]
      exact .pure ⟨trivial, trivial⟩
    | cons t ts =>
      rw [memberInits]
      exact (reports_initializer t isGlobal i hi).bind fun x hx =>
        (Reports.andThen hx.2 trivial (reports_memberInits ts isGlobal is his)).bind
          fun _ hrest => .pure ⟨trivial, hrest.2⟩

theorem reports_scalarInit (t : TypeId) (isGlobal : Bool) {span : Span} (hspan : D.place span) :
    ∀ is, D.initializers is →
      Reports D.place (Told D.place fun _ => True) (scalarInit t isGlobal span is)
  | [.expr e], h => by
    rw [scalarInit]
    exact (reports_initialValue t isGlobal e h.1).bind fun _ hx => .pure ⟨trivial, hx.2⟩
  | [], _ | [.list _ _], _ | _ :: _ :: _, _ => by
    rw [scalarInit]
    · exact .pure ⟨trivial, .type hspan⟩
    · nofun

end

/-! Functions and whole units. -/

theorem reports_params (hasBody : Bool) : ∀ ps : List ParamDecl, (∀ p ∈ ps, D.param p) →
    Reports D.place (Told D.place fun ps' => ∀ p ∈ ps', D.place p.span) (params hasBody ps)
  | [], _ => .pure ⟨List.forall_mem_nil _, trivial⟩
  | p :: ps, h => by
    obtain ⟨hp, hps⟩ := List.forall_mem_cons.mp h
    unfold params
    refine Reports.bind (blames_checkParam hp) fun t ht => ?_
    cases t with
    | error e => exact .pure ⟨fun q hq => (h q hq).1, ht⟩
    | ok t =>
      exact (reports_params hasBody ps hps).bind fun _ hrest =>
        .pure ⟨List.forall_mem_cons.mpr ⟨hp.1, hrest.1⟩, hrest.2.map fun _ _ => trivial⟩

theorem sited_mergeSignature {name : String} {ret : TypeId} {sig : Signature}
    {previous : Option Symbol} (h : P span) : Sited P (mergeSignature name ret sig span previous) := by
  unfold mergeSignature
  split
  · trivial
  · refine iteInduction (fun _ => .name h) fun _ => iteInduction (fun _ => .type h) fun _ => ?_
    exact iteInduction (fun _ => .name h) fun _ => trivial
  · exact .name h

theorem blames_declareFunction {name : String} {ret : TypeId} {sig : Signature} (h : P span) :
    Blames P (fun _ => True) (declareFunction name ret sig span) :=
  .get_bind fun _ => (Blames.lift (sited_mergeSignature h)).bind fun _ _ =>
    fun _ hs => ⟨trivial, hs⟩

theorem blames_defineParams : ∀ {ps : List ParamDecl}, (∀ p ∈ ps, P p.span) →
    Blames P (fun _ => True) (defineParams ps)
  | [], _ => .pure trivial
  | p :: ps, h => by
    obtain ⟨hp, hps⟩ := List.forall_mem_cons.mp h
    unfold defineParams
    split
    · exact (Blames.enter hp).bind fun _ _ => blames_defineParams hps
    · exact blames_defineParams hps

theorem reports_functionBody {ret : TypeId} {ps : List ParamDecl} {body : Block}
    (hps : ∀ p ∈ ps, D.place p.span) (h : D.block body) :
    Reports D.place (Told D.place fun _ => True) (functionBody ret ps body) := by
  refine .modify_bind (fun _ => rfl) ((Reports.inScope (Reports.bind (blames_defineParams hps)
    fun v hv => ?_)).bind fun x hx => .modify_bind (fun _ => rfl) (.pure hx))
  exact Reports.andThen hv trivial (reports_block true body h)

theorem reports_function {f : FuncDecl} (h : D.function f) :
    Reports D.place (Told D.place fun _ => True) (function f) := by
  obtain ⟨hspan, hreturns, hparams, hbody⟩ := h
  refine Reports.bind (blames_checkResult hreturns) fun ret hret => ?_
  cases ret with
  | error e => exact .pure ⟨trivial, hret⟩
  | ok ret =>
    refine (reports_params f.body.isSome f.params hparams).bind fun ps hps => ?_
    refine Reports.bind ((Blames.lift hps.2).bind fun _ _ => blames_declareFunction hspan)
      fun declared hdeclared => ?_
    cases declared with
    | error e => exact .pure ⟨trivial, hdeclared⟩
    | ok _ =>
      cases hf : f.body with
      | none => exact .pure ⟨trivial, trivial⟩
      | some body =>
        exact (reports_functionBody hps.1 (hbody body hf)).bind fun _ hx => .pure ⟨trivial, hx.2⟩

theorem reports_topDecl : ∀ d, D.topDecl d →
    Reports D.place (Told D.place fun _ => True) (topDecl d)
  | .declaration d, h => (reports_declaration d h).bind fun _ hx => .pure ⟨trivial, hx.2⟩
  | .function _, h => (reports_function h).bind fun _ hx => .pure ⟨trivial, hx.2⟩

theorem reports_topDecls : ∀ ds : List TopDecl, (∀ d ∈ ds, D.topDecl d) →
    Reports D.place (fun _ => True) (topDecls ds)
  | [], _ => .pure trivial
  | d :: ds, h => by
    obtain ⟨hd, hds⟩ := List.forall_mem_cons.mp h
    have hrest := reports_topDecls ds hds
    refine (reports_topDecl d hd).bind fun x hx => ?_
    obtain ⟨d', done⟩ := x
    cases done with
    | ok _ => exact hrest.bind fun _ _ => .pure trivial
    | error e => exact .record_bind hx.2 (hrest.bind fun _ _ => .pure trivial)

/-- Whatever is wrong with a unit, it is at places of the unit. -/
theorem place_of_analyze (config : Layout.Config) {u : CompilationUnit} (h : D.unit u) :
    ∀ e ∈ (analyze config u).errors, ∀ x ∈ e.spans, D.place x := by
  intro e he
  exact (reports_topDecls u.decls h (State.initial config) (by simp [State.initial])).2 e
    (Array.mem_toList_iff.mp he)

end Typing

end MiniC
