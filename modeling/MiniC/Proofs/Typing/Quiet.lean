import MiniC.Typing.Analysis
/-!
Checks. Whatever a check finds out, it records no failure and leaves the names in scope as they are;
only the definition of a name adds one.
-/
namespace MiniC

/-- The symbols of each frame, innermost first. -/
def Scope.symbols (s : Scope) : List (List Symbol) := (s.inner :: s.outer).map (·.symbols)

end MiniC

namespace MiniC.Typing

open Syntax
open Check

/-- Failures and symbols are as they were. -/
structure Same (s s' : State) : Prop where
  errors : s'.errors = s.errors
  symbols : s'.scope.symbols = s.scope.symbols

theorem Same.refl (s : State) : Same s s := ⟨rfl, rfl⟩

theorem Same.trans {s s' s'' : State} (h : Same s s') (k : Same s' s'') : Same s s'' :=
  ⟨k.errors.trans h.errors, k.symbols.trans h.symbols⟩

def Quiet {α : Type} (c : Check α) : Prop := ∀ s, Same s (outcome c s).2

theorem run_bind {ρ υ : Type} {x : Analysis υ} {a : υ} {s s' : State} (h : x s = (a, s'))
    (k : υ → Analysis ρ) : (x >>= k) s = k a s' := by
  show k (x s).1 (x s).2 = _
  rw [h]

theorem outcome_get_bind {α : Type} (k : State → Check α) (s : State) :
    outcome (get >>= k) s = outcome (k s) s := rfl

theorem outcome_bind {α β : Type} (c : Check α) (k : α → Check β) (s : State) :
    outcome (c >>= k) s =
      match outcome c s with
      | (.ok a, s') => outcome (k a) s'
      | (.error e, s') => (.error e, s') := by
  show (match c s with | (v, s') => ExceptT.bindCont k v s') = _
  cases hc : c s with
  | mk v s' =>
    simp only [outcome, hc]
    cases v <;> rfl

theorem outcome_registry_bind {α : Type} (k : Registry → Check α) (s : State) :
    outcome (Check.registry >>= k) s = outcome (k s.registry) s := rfl

theorem outcome_rule {α : Type} (f : Registry → Verdict α) (s : State) :
    outcome (rule f) s = (f s.registry, s) := by
  unfold rule
  rw [outcome_registry_bind]
  cases f s.registry <;> rfl

theorem outcome_intern (f : Registry → Except LayoutError (TypeId × Registry)) (span : Span)
    (s : State) :
    outcome (intern f span) s =
      match f s.registry with
      | .ok y => (.ok y.1, { s with registry := y.2 })
      | .error e => (.error (.ofLayout e span), s) := by
  unfold intern
  rw [outcome_registry_bind]
  cases f s.registry <;> rfl

theorem outcome_buildStruct (name : Option String) (members : List MemberDecl) (span : Span)
    (s : State) :
    outcome (buildStruct name members span) s =
      ((s.registry.buildStruct name members).1.mapError (TypingError.ofLayout · span),
        { s with registry := (s.registry.buildStruct name members).2 }) := by
  unfold buildStruct
  rw [outcome_registry_bind]
  obtain ⟨⟨result, r⟩, hbuild⟩ : ∃ y, s.registry.buildStruct name members = y := ⟨_, rfl⟩
  rw [hbuild]
  cases result <;> rfl

theorem outcome_enter (f : Scope → Except ScopeError Scope) (span : Span) (s : State) :
    outcome (enter f span) s =
      match f s.scope with
      | .ok scope => (.ok (), { s with scope })
      | .error e => (.error (.name (.scope e) span), s) := by
  show outcome (match f s.scope with | .ok scope => _ | .error e => _) s = _
  cases f s.scope <;> rfl

namespace Quiet

variable {α β : Type} {c : Check α}

theorem pure (a : α) : Quiet (pure a : Check α) := Same.refl

theorem throw (e : TypingError) : Quiet (throw e : Check α) := Same.refl

theorem lift (v : Verdict α) : Quiet (liftM v : Check α) := by
  cases v <;> exact Same.refl

theorem bind {k : α → Check β} (hc : Quiet c) (hk : ∀ a, Quiet (k a)) : Quiet (c >>= k) := by
  intro s
  have hfirst := hc s
  rw [outcome_bind]
  cases h : outcome c s with
  | mk v s' =>
    rw [h] at hfirst
    cases v with
    | ok a => exact hfirst.trans (hk a s')
    | error e => exact hfirst

theorem get_bind {k : State → Check β} (hk : ∀ s, Quiet (k s)) : Quiet (get >>= k) := fun s => hk s s

theorem registry_bind {k : Registry → Check β} (hk : ∀ r, Quiet (k r)) :
    Quiet (Check.registry >>= k) := fun s => hk s.registry s

theorem modify_bind {f : State → State} {k : PUnit → Check β} (hf : ∀ s, Same s (f s))
    (hk : Quiet (k ⟨⟩)) : Quiet (modify f >>= k) := fun s => (hf s).trans (hk (f s))

theorem ite {p : Prop} [Decidable p] {c d : Check α} (hc : Quiet c) (hd : Quiet d) :
    Quiet (if p then c else d) := by
  split
  · exact hc
  · exact hd

/-- Past a test that only fails. -/
theorem guard {p : Prop} [Decidable p] {c : Check PUnit} {k : PUnit → Check β} (hc : Quiet c)
    (hk : Quiet (k ⟨⟩)) : Quiet (if p then c >>= k else k ⟨⟩) :=
  .ite (hc.bind fun _ => hk) hk

theorem rule (f : Registry → Verdict α) : Quiet (rule f) := by
  refine registry_bind fun r => ?_
  cases f r with
  | ok a => exact .pure a
  | error e => exact .throw e

theorem intern (f : Registry → Except LayoutError (TypeId × Registry)) (span : Span) :
    Quiet (intern f span) := by
  refine registry_bind fun r => ?_
  cases f r with
  | ok x => exact modify_bind (fun s => ⟨rfl, rfl⟩) (.pure _)
  | error e => exact .throw _

theorem buildStruct (name : Option String) (members : List MemberDecl) (span : Span) :
    Quiet (buildStruct name members span) := by
  refine registry_bind fun r => modify_bind (fun s => ⟨rfl, rfl⟩) ?_
  split
  · exact .pure _
  · exact .throw _

/-- A tag is no symbol. -/
theorem enterTag (tag : StructTag) (span : Span) : Quiet (enter (·.defineTag tag) span) := by
  intro s
  rw [outcome_enter]
  unfold Scope.defineTag
  cases s.scope.inner.tag? tag.name with
  | some t => exact Same.refl s
  | none => exact ⟨rfl, rfl⟩

theorem decay (t : TypeId) (span : Span) : Quiet (decay t span) := by
  refine registry_bind fun r => ?_
  split
  · exact intern _ _
  · exact .pure _

end Quiet

/-! Types as they are written. -/

theorem quiet_checkWritten (depth : Nat) (span : Span) : Quiet (checkWritten depth span) :=
  .registry_bind fun _ => .ite (.throw _) (.pure _)

theorem quiet_checkElement (t : TypeId) (span : Span) : Quiet (checkElement t span) :=
  .registry_bind fun _ => .ite (.throw _) (.pure _)

mutual

theorem quiet_resolveAt (depth : Nat) : ∀ ty, Quiet (resolveAt depth ty)
  | ⟨kind, _, span⟩ => by
    rw [resolveAt]
    exact (quiet_checkWritten depth span).bind fun _ => quiet_resolveKind depth span kind

theorem quiet_resolveKind (depth : Nat) (span : Span) : ∀ kind, Quiet (resolveKind depth span kind)
  | .void => by rw [resolveKind]; exact .pure _
  | .int width signed => by rw [resolveKind]; exact .registry_bind fun _ => .pure _
  | .pointer inner => by
    rw [resolveKind]
    exact (quiet_resolveAt (depth + 1) inner).bind fun _ => .intern _ _
  | .array element size => by
    rw [resolveKind]
    refine (quiet_resolveAt (depth + 1) element).bind fun _ => (quiet_checkElement _ _).bind fun _ => ?_
    cases size with
    | some length => exact .intern _ _
    | none => exact .throw _
  | .struct spec => by
    rw [resolveKind]
    exact quiet_resolveSpec depth spec

theorem quiet_resolveSpec (depth : Nat) : ∀ spec, Quiet (resolveSpec depth spec)
  | ⟨id, name, members, span⟩ => by
    rw [resolveSpec]
    refine .get_bind fun s => ?_
    cases s.specs[id]? with
    | some t => exact .pure t
    | none =>
      exact (quiet_resolveBody depth name span members).bind fun t =>
        .modify_bind (fun s => ⟨rfl, rfl⟩) (.pure t)

theorem quiet_resolveBody (depth : Nat) (tag : Option String) (span : Span) :
    ∀ members, Quiet (resolveBody depth tag span members)
  | some members => by
    rw [resolveBody]
    refine (quiet_resolveMembers (depth + 1) members).bind fun decls =>
      (Quiet.buildStruct tag decls span).bind fun t => ?_
    cases tag with
    | some name => exact (Quiet.enterTag _ _).bind fun _ => .pure t
    | none => exact .pure t
  | none => by
    rw [resolveBody]
    refine .get_bind fun s => ?_
    cases s.scope.lookupTag (tag.getD "") with
    | some t => exact .pure t
    | none => exact .throw _

theorem quiet_resolveMembers (depth : Nat) : ∀ ms, Quiet (resolveMembers depth ms)
  | [] => by rw [resolveMembers]; exact .pure _
  | m :: ms => by
    rw [resolveMembers]
    exact (quiet_resolveMember depth m).bind fun _ => (quiet_resolveMembers depth ms).bind fun _ =>
      .pure _

theorem quiet_resolveMember (depth : Nat) : ∀ m, Quiet (resolveMember depth m)
  | ⟨name, ty, span⟩ => by
    rw [resolveMember]
    exact (quiet_resolveAt depth ty).bind fun _ => .registry_bind fun _ =>
      .guard (.throw _) (.pure _)

end

theorem quiet_resolveObject (ty : TypeExpr) (init : Option Initializer) :
    Quiet (resolveObject ty init) := by
  unfold resolveObject
  split
  · split
    · exact (quiet_resolveAt 2 _).bind fun _ => (quiet_checkElement _ _).bind fun _ => .intern _ _
    · exact .throw _
  · exact quiet_resolveAt 1 ty

theorem quiet_resolveParam (ty : TypeExpr) : Quiet (resolveParam ty) := by
  unfold resolveParam
  split
  · exact (quiet_resolveAt 2 _).bind fun _ => .intern _ _
  · exact quiet_resolveAt 1 ty

/-! Expressions, declarations and functions. -/

theorem quiet_nameType (name : String) (span : Span) : Quiet (nameType name span) := by
  refine .get_bind fun s => ?_
  split
  · exact .throw _
  · exact .pure _
  · exact .throw _

theorem quiet_calledFunction (callee : Expr) : Quiet (calledFunction callee) := by
  unfold calledFunction
  split
  · refine .get_bind fun s => ?_
    split
    · exact .pure _
    · exact .registry_bind fun _ => .throw _
    · exact .throw _
  · exact .throw _

theorem quiet_checkArgumentCount (sig : Signature) (got : Nat) (span : Span) :
    Quiet (checkArgumentCount sig got span) :=
  .ite (.throw _) (.pure _)

theorem quiet_checkArgument (param : Option TypeId) (t : TypeId) (arg : Expr) :
    Quiet (checkArgument param t arg) := by
  unfold checkArgument
  split
  · exact .rule _
  · exact .registry_bind fun _ => .ite (.throw _) (.pure _)

theorem quiet_checkTarget (target : Expr) (t : TypeId) : Quiet (checkTarget target t) :=
  .guard (.throw _) (.registry_bind fun _ => .ite (.throw _) (.pure _))

theorem quiet_checkAssignment (op : Option BinaryOp) (t v : TypeId) (value : Expr) (span : Span) :
    Quiet (checkAssignment op t v value span) := by
  unfold checkAssignment
  split
  · exact (Quiet.rule _).bind fun _ => .pure _
  · exact (Quiet.rule _).bind fun _ => .pure _

theorem quiet_checkStepped (operand : Expr) (t : TypeId) (span : Span) :
    Quiet (checkStepped operand t span) :=
  .registry_bind fun _ => .guard (.throw _) (.guard (.rule _) (.pure _))

theorem quiet_checkIndex (base subscript : TypeId) (index : Expr) (span : Span) :
    Quiet (checkIndex base subscript index span) :=
  .registry_bind fun _ => .guard (.throw _) (.rule _)

theorem quiet_addressType (operand : Expr) (t : TypeId) (span : Span) :
    Quiet (addressType operand t span) :=
  .guard (.throw _) (.intern _ _)

theorem quiet_blockType (b : Block) (span : Span) : Quiet (blockType b span) := by
  unfold blockType
  split
  · exact .decay _ _
  · exact .pure _

theorem quiet_checkReturn (t : Verdict TypeId) (value : Expr) : Quiet (checkReturn t value) := by
  refine (Quiet.lift t).bind fun t => .get_bind fun s => ?_
  split
  · exact .registry_bind fun _ => .guard (.throw _) (.rule _)
  · exact .pure _

theorem quiet_checkStringInit (element : TypeId) (length : Nat) (text : String) (span : Span) :
    Quiet (checkStringInit element length text span) :=
  .registry_bind fun _ => .guard (.throw _) (.ite (.throw _) (.pure _))

theorem quiet_checkConstantInit (isGlobal : Bool) (e : Expr) : Quiet (checkConstantInit isGlobal e) :=
  .ite (.throw _) (.pure _)

theorem quiet_checkExcess (cause : TypeCause) (items : List Initializer) (length : Nat) :
    Quiet (checkExcess cause items length) := by
  unfold checkExcess
  split
  · exact .throw _
  · exact .pure _

theorem quiet_queryType (q : SizeQuery) (ty : TypeExpr) : Quiet (queryType q ty) :=
  (quiet_resolveAt 1 ty).bind fun _ => .rule _

theorem quiet_checkVariable (v : VarDecl) : Quiet (checkVariable v) :=
  (quiet_resolveObject v.ty v.init).bind fun _ => .registry_bind fun _ => .guard (.throw _) (.pure _)

theorem quiet_checkStructDecl (spec : StructSpec) : Quiet (checkStructDecl spec) :=
  .guard (.throw _) ((quiet_resolveSpec 1 spec).bind fun _ => .pure _)

theorem quiet_inLoopOr (cause : NameCause) (span : Span) : Quiet (inLoopOr cause span) :=
  .get_bind fun _ => .ite (.throw _) (.pure _)

theorem quiet_checkResult (returns : TypeExpr) : Quiet (checkResult returns) :=
  (quiet_resolveAt 1 returns).bind fun _ => .registry_bind fun _ =>
    .guard (.throw _) (.guard (.throw _) (.pure _))

theorem quiet_checkParam (hasBody : Bool) (p : ParamDecl) : Quiet (checkParam hasBody p) :=
  (quiet_resolveParam p.ty).bind fun _ => .registry_bind fun _ =>
    .guard (.throw _) (.guard (.throw _) (.pure _))

end MiniC.Typing
